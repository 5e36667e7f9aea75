import WeakChain.Cnsss.Basic
import WeakChain.Lib.Run
import Mathlib.Algebra.Order.Ring.Int

/-!
# A Raft node during an election

A node that has not heard from a primary for a while starts a new term, votes for itself and asks
the others for their votes (`complain`); a node that is asked votes if the term is newer than its
own and newer than the last term it voted in (`handlePleaseVoteMe`); and a candidate with enough
votes makes itself the primary (`handleVoteForYou`).

The counters are `std::atomic_int`: they wrap at 32 bits (`int32`), and the number of votes is
converted to `size_t` before it is compared with the size of the group.
-/

namespace WeakChain

namespace Raft

/-- A target together with its message; the terms travel as decimal strings. -/
inductive Msg
  | pleaseVoteMe (term : ℤ)
  | voteForYou (term : ℤ)
  | iAmThePrimary (term : ℤ)
  | heartbeat
  deriving DecidableEq

/-- A message on its way. -/
structure Packet where
  /-- The sender. -/
  src : Endpoint
  /-- The receiver. -/
  dst : Endpoint
  /-- What is sent. -/
  msg : Msg
  deriving DecidableEq

/-- The state of a node. -/
structure Node where
  /-- `net->listened_endpoint()`. -/
  listenedEndpoint : Endpoint
  /-- The rest of the group. -/
  others : List Endpoint
  /-- The ticks until the node complains. -/
  patience : ℤ
  /-- The current term. -/
  term : ℤ
  /-- The last term the node voted in. -/
  votedTerm : ℤ
  /-- The votes collected. -/
  myVotes : ℤ
  /-- The primary, as far as the node knows. -/
  primary : Endpoint
  /-- A primary thread has been created and has not reset the votes yet. -/
  primaryThread : Bool

/-- What a handler leaves behind. -/
structure Out where
  /-- The node after the call. -/
  node : Node
  /-- The messages sent, in order. -/
  sent : List Packet := []
  /-- The votes given: the term and the candidate. -/
  votes : List (ℤ × Endpoint) := []
  /-- The terms for which the node has made itself the primary. -/
  won : List ℤ := []

namespace Node

/-- A node at the start; `rand` is what the timer drew. -/
def start (i : Endpoint) (others : List Endpoint) (rand : ℕ) : Node where
  listenedEndpoint := i
  others := others
  patience := 5 + (rand : ℤ) % 6
  term := 0
  votedTerm := 0
  myVotes := 0
  primary := []
  primaryThread := false

variable (n : Node)

/-- `comfort`, with the value of `std::rand()`. -/
def comfort (rand : ℕ) : Node := { n with patience := 5 + (rand : ℤ) % 6 }

/-- Send a message to all the others. -/
def sendToOthers (msg : Msg) : List Packet :=
  n.others.map fun other => ⟨n.listenedEndpoint, other, msg⟩

/-- `complain`: start a new term and vote for myself. -/
def complain : Out :=
  -- unlike `handle_pleaseVoteMe`, this does not look at `voted_term`
  let term := int32 (n.term + 1)
  { node := { n with term := term, myVotes := 1, votedTerm := term }
    sent := n.sendToOthers (.pleaseVoteMe term)
    votes := [(term, n.listenedEndpoint)] }

/-- One round of the loop in `start_internal_timer`. -/
def tick (rand : ℕ) : Out :=
  if n.primary = n.listenedEndpoint then { node := n }
  else if n.patience = 0 then { n.complain with node := n.complain.node.comfort rand }
  else { node := { n with patience := int32 (n.patience - 1) } }

/-- `handle_pleaseVoteMe`. -/
def handlePleaseVoteMe (src : Endpoint) (term : ℤ) : Out :=
  if n.term < term ∧ n.votedTerm < term then
    { node := { n with votedTerm := term }
      sent := [⟨n.listenedEndpoint, src, .voteForYou term⟩]
      votes := [(term, src)] }
  else { node := n }

/-- `handle_voteForYou`. -/
def handleVoteForYou (_src : Endpoint) (term : ℤ) : Out :=
  if term = n.term then
    let myVotes := int32 (n.myVotes + 1)
    -- the `int` is converted to `size_t` for the comparison
    if n.others.length / 2 < toSizeT myVotes then
      { node := { n with myVotes := myVotes, primary := n.listenedEndpoint, primaryThread := true }
        sent := n.sendToOthers (.iAmThePrimary n.term)
        won := [n.term] }
    else { node := { n with myVotes := myVotes } }
  else { node := n }

/-- The beginning of `start_being_primary`, on the primary thread. -/
def startBeingPrimary : Out := { node := { n with myVotes := 0, primaryThread := false } }

/-- One round of the loop in `start_being_primary`. -/
def beat : Out :=
  if n.primary = n.listenedEndpoint then { node := n, sent := n.sendToOthers .heartbeat }
  else { node := n }

/-- `handle_heartbeat`: only the primary is listened to. -/
def handleHeartbeat (src : Endpoint) (rand : ℕ) : Out :=
  if n.primary = src then { node := n.comfort rand } else { node := n }

/-- Follow a primary into its term. -/
def follow (src : Endpoint) (term : ℤ) : Node := { n with term := term, primary := src }

/-- `handle_iAmThePrimary`. -/
def handleIAmThePrimary (src : Endpoint) (term : ℤ) (rand : ℕ) : Out :=
  if n.term ≤ term then { node := (n.follow src term).comfort rand } else { node := n }

/-- The handler a message is for. -/
def receive (src : Endpoint) (msg : Msg) (rand : ℕ) : Out :=
  match msg with
  | .pleaseVoteMe term => n.handlePleaseVoteMe src term
  | .voteForYou term => n.handleVoteForYou src term
  | .iAmThePrimary term => n.handleIAmThePrimary src term rand
  | .heartbeat => n.handleHeartbeat src rand

end Node

/-! ### What a node can do -/

/-- What can happen to a node. -/
inductive Input
  /-- The timer ticks. -/
  | tick (rand : ℕ)
  /-- A message arrives. -/
  | receive (src : Endpoint) (msg : Msg) (rand : ℕ)
  /-- The primary thread starts. -/
  | startBeingPrimary
  /-- A primary sends heartbeats. -/
  | beat
  deriving DecidableEq

namespace Node

/-- What the node does. -/
def handle (n : Node) : Input → Out
  | .tick rand => n.tick rand
  | .receive src msg rand => n.receive src msg rand
  | .startBeingPrimary => n.startBeingPrimary
  | .beat => n.beat

/-- Everything a node can do, guards included. -/
inductive Does (n : Node) : Input → Out → Prop
  /-- At most the patience changes. -/
  | quiet (i : Input) (patience : ℤ) : Does n i { node := { n with patience := patience } }
  /-- The node starts a new term. -/
  | complain (rand : ℕ) (hself : n.primary ≠ n.listenedEndpoint) (hpatience : n.patience = 0) :
      Does n (.tick rand) { n.complain with node := n.complain.node.comfort rand }
  /-- The node votes for another one. -/
  | vote (src : Endpoint) (term : ℤ) (rand : ℕ) (hterm : n.term < term)
      (hvoted : n.votedTerm < term) :
      Does n (.receive src (.pleaseVoteMe term) rand)
        { node := { n with votedTerm := term }
          sent := [⟨n.listenedEndpoint, src, .voteForYou term⟩]
          votes := [(term, src)] }
  /-- A vote is counted, and is not enough. -/
  | count (src : Endpoint) (rand : ℕ)
      (hfew : ¬n.others.length / 2 < toSizeT (int32 (n.myVotes + 1))) :
      Does n (.receive src (.voteForYou n.term) rand)
        { node := { n with myVotes := int32 (n.myVotes + 1) } }
  /-- A vote is counted, and the node makes itself the primary. -/
  | win (src : Endpoint) (rand : ℕ)
      (hwin : n.others.length / 2 < toSizeT (int32 (n.myVotes + 1))) :
      Does n (.receive src (.voteForYou n.term) rand)
        { node :=
            { n with
              myVotes := int32 (n.myVotes + 1)
              primary := n.listenedEndpoint
              primaryThread := true }
          sent := n.sendToOthers (.iAmThePrimary n.term)
          won := [n.term] }
  /-- The node follows a primary into its term. -/
  | follow (src : Endpoint) (term : ℤ) (rand : ℕ) (hterm : n.term ≤ term) :
      Does n (.receive src (.iAmThePrimary term) rand)
        { node := (n.follow src term).comfort rand }
  /-- The primary thread resets the votes. -/
  | reset : Does n .startBeingPrimary n.startBeingPrimary
  /-- A primary sends heartbeats. -/
  | beat (hself : n.primary = n.listenedEndpoint) :
      Does n .beat { node := n, sent := n.sendToOthers .heartbeat }

variable {n : Node}

theorem does_receive (src : Endpoint) (msg : Msg) (rand : ℕ) :
    n.Does (.receive src msg rand) (n.receive src msg rand) := by
  cases msg with
  | pleaseVoteMe term =>
    simp only [receive, handlePleaseVoteMe]
    split_ifs with hnew
    · exact .vote src term rand hnew.1 hnew.2
    · exact .quiet _ n.patience
  | voteForYou term =>
    simp only [receive, handleVoteForYou]
    split_ifs with hterm hwin
    · subst hterm
      exact .win src rand hwin
    · subst hterm
      exact .count src rand hwin
    · exact .quiet _ n.patience
  | iAmThePrimary term =>
    simp only [receive, handleIAmThePrimary]
    split_ifs with hterm
    · exact .follow src term rand hterm
    · exact .quiet _ n.patience
  | heartbeat =>
    simp only [receive, handleHeartbeat]
    split_ifs with hprimary
    · exact .quiet _ _
    · exact .quiet _ n.patience

/-- **What a node does.** -/
theorem does_handle (n : Node) (i : Input) : n.Does i (n.handle i) := by
  cases i with
  | tick rand =>
    simp only [handle, tick]
    split_ifs with hself hpatience
    · exact .quiet _ n.patience
    · exact .complain rand hself hpatience
    · exact .quiet _ _
  | receive src msg rand => exact does_receive src msg rand
  | startBeingPrimary => exact .reset
  | beat =>
    simp only [handle, Node.beat]
    split_ifs with hself
    · exact .beat hself
    · exact .quiet _ n.patience

/-- A node keeps its name and its peers. -/
theorem Does.frame {i : Input} {o : Out} (h : n.Does i o) :
    o.node.listenedEndpoint = n.listenedEndpoint ∧ o.node.others = n.others := by
  cases h <;> exact ⟨rfl, rfl⟩

end Node

/-! ### A group of nodes -/

/-- A group. -/
structure Group where
  /-- Its endpoints. -/
  members : List Endpoint
  /-- They are distinct. -/
  nodup : members.Nodup

/-- A vote that was given. -/
structure Vote where
  /-- Who voted. -/
  voter : Endpoint
  /-- The term. -/
  term : ℤ
  /-- For whom. -/
  candidate : Endpoint
  deriving DecidableEq

/-- The nodes and the network, with the history of the elections. -/
structure Cluster where
  /-- The nodes. -/
  node : Endpoint → Node
  /-- The messages on their way. -/
  flying : List Packet
  /-- The votes given so far. -/
  votes : List Vote
  /-- Who has made itself the primary, and for which term. -/
  wins : List (Endpoint × ℤ)

/-- What can happen. -/
inductive Event
  /-- The timer of a node ticks. -/
  | tick (i : Endpoint) (rand : ℕ)
  /-- The primary thread of a node starts. -/
  | startBeingPrimary (i : Endpoint)
  /-- A primary sends heartbeats. -/
  | beat (i : Endpoint)
  /-- The network delivers a message. -/
  | deliver (p : Packet) (rand : ℕ)
  deriving DecidableEq

namespace Group

variable (G : Group)

/-- The size of the group. -/
def n : ℕ := G.members.length

/-- The nodes at the start. -/
def start (rand : Endpoint → ℕ) (i : Endpoint) : Node :=
  .start i (G.members.filter fun other => other ≠ i) (rand i)

/-- Install what a handler of node `i` left behind. -/
def apply (s : Cluster) (i : Endpoint) (o : Out) : Cluster where
  node := Function.update s.node i o.node
  flying := s.flying ++ o.sent
  votes := s.votes ++ o.votes.map fun v => ⟨i, v.1, v.2⟩
  wins := s.wins ++ o.won.map fun t => (i, t)

/-- Take a message out of the network. -/
def take (s : Cluster) (p : Packet) : Cluster := { s with flying := s.flying.erase p }

/-- Which events may happen.  A message that is never delivered is lost. -/
def Enabled (s : Cluster) : Event → Prop
  | .tick i _ => i ∈ G.members
  | .startBeingPrimary i => i ∈ G.members ∧ (s.node i).primaryThread = true
  | .beat i => i ∈ G.members
  | .deliver p _ => p ∈ s.flying ∧ p.dst ∈ G.members

instance (s : Cluster) (l : Event) : Decidable (G.Enabled s l) :=
  match l with
  | .tick _ _ => inferInstanceAs (Decidable (_ ∈ _))
  | .startBeingPrimary _ => inferInstanceAs (Decidable (_ ∧ _))
  | .beat _ => inferInstanceAs (Decidable (_ ∈ _))
  | .deliver _ _ => inferInstanceAs (Decidable (_ ∧ _))

/-- The effect of an event. -/
def act (s : Cluster) : Event → Cluster
  | .tick i rand => apply s i ((s.node i).tick rand)
  | .startBeingPrimary i => apply s i (s.node i).startBeingPrimary
  | .beat i => apply s i (s.node i).beat
  | .deliver p rand => apply (take s p) p.dst ((s.node p.dst).receive p.src p.msg rand)

/-- The group as a system. -/
def sys : Sys Cluster Event where
  init s := ∃ rand, s = ⟨G.start rand, [], [], []⟩
  enabled := G.Enabled
  act := act

instance (s : Cluster) (l : Event) : Decidable (G.sys.enabled s l) :=
  inferInstanceAs (Decidable (G.Enabled s l))

end Group

end Raft

end WeakChain
