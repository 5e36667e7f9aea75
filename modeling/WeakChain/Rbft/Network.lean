import WeakChain.Rbft.Ballots
import WeakChain.Rbft.Newcomer
import WeakChain.Rbft.Order

/-!
# A group of RBFT nodes

Any number of nodes, members or newcomers, and the network between them.  The network loses, delays,
reorders and repeats datagrams: what has been sent can be delivered at any time, any number of
times, or never.  Faulty nodes send what they like.  Timers run out whenever they like.

The state has the books for the statements about runs: who has laid down, what has been executed by
subs, who has entered which view, and which newcomers have been admitted.

`Member.moves_of_does` says what an input can do to the view of a node, as long as the epochs are
exact: leave it, raise the epoch, or bring it to the view that the input is about (`Member.via`).
-/

namespace WeakChain

namespace Rbft

/-! ### The view of a node -/

namespace Member

variable {X : Type*} {S : IMsgManageable} {E : IForConsensusExecutable X} {m : Member X}

variable [Pb hiPb.LaidDownMsg] [Pb hiPb.NewViewCertificate]

/-- The view that an input is about: the epoch for which nodes have laid down, and the newcomers. -/
def via (S : IMsgManageable) (m : Member X) : Input → ℤ × List Endpoint
  | .timeout => (m.epoch + 1, getNewcommers S m.sigOfNodesToBeAdded)
  | .datagram _ .iLaidDown data =>
    match openLaidDown S data with
    | none => (m.epoch, [])
    | some (_, msg) => (msg.epoch, getNewcommers S m.sigOfNodesToBeAdded)
  | .datagram _ .iamThePrimary data | .datagram _ .iamThePrimaryForNewcomer data =>
    match NewViewCertificate.fromString data with
    | none => (m.epoch, [])
    | some o => (o.epoch, getNewcommers S o.sigOfNodesToBeAdded)
  | _ => (m.epoch, [])

/-- The epoch of the view that an input is about, once the newcomers are there. -/
def viaEpoch (S : IMsgManageable) (m : Member X) (i : Input) : ℤ :=
  (m.via S i).1 + (m.via S i).1 / m.N * (m.via S i).2.length

/-- The epochs of the view that an input is about fit into an `int`. -/
def Fits (S : IMsgManageable) (m : Member X) (i : Input) : Prop :=
  0 ≤ (m.via S i).1 ∧ m.viaEpoch S i < 2 ^ 31

instance (i : Input) : Decidable (m.Fits S i) := inferInstanceAs (Decidable (_ ∧ _))

/-- What an input can do to the view of a node. -/
inductive Moves (S : IMsgManageable) (m : Member X) (i : Input) (o : Outcome X) : Prop
  /-- The node stays in its view. -/
  | stay (hi : i = .timeout → m.role = .newcomer) (hepoch : o.member.epoch = m.epoch)
      (hlist : o.member.allEndpoints = m.allEndpoints) (hrole : o.member.role = m.role)
      (hentered : o.entered = false) (hcert : o.cert = none)
  /-- The node lays down. -/
  | layDown (hi : i = .timeout) (hm : m.role ≠ .newcomer) (hepoch : o.member.epoch = m.epoch + 1)
      (hlist : o.member.allEndpoints = m.allEndpoints) (hrole : o.member.role = m.role)
      (hentered : o.entered = false) (hcert : o.cert = none)
  /-- The node enters the view that the input is about. -/
  | enter (hepoch : o.member.epoch = m.viaEpoch S i)
      (hlist : o.member.allEndpoints = m.allEndpoints ++ (m.via S i).2)
      (hrole : o.member.role ≠ .newcomer) (hentered : o.entered = true)
      (hle : m.role ≠ .newcomer → m.epoch ≤ (m.via S i).1)
      (hcert : ∀ c, o.cert = some c → m.role ≠ .newcomer ∧ c.epoch = (m.via S i).1 ∧
        getNewcommers S c.sigOfNodesToBeAdded = (m.via S i).2)
  /-- The node remains a newcomer. -/
  | stray (hm : m.role = .newcomer) (hrole : o.member.role = .newcomer)
      (hentered : o.entered = false) (hcert : o.cert = none)

theorem Fits.le_viaEpoch {i : Input} (h : m.Fits S i) : (m.via S i).1 ≤ m.viaEpoch S i := by
  have hprod : 0 ≤ (m.via S i).1 / (m.N : ℤ) * (m.via S i).2.length :=
    mul_nonneg (Int.ediv_nonneg h.1 (Int.natCast_nonneg _)) (Int.natCast_nonneg _)
  rw [viaEpoch]
  omega

/-- Laying down raises the epoch. -/
theorem Fits.epoch_layDown (h : m.Fits S .timeout) : m.layDown.epoch = m.epoch + 1 := by
  have hle : m.epoch + 1 ≤ m.viaEpoch S .timeout := h.le_viaEpoch
  have hnonneg : 0 ≤ m.epoch + 1 := h.1
  have hlt := h.2
  exact int32_of_lt hnonneg (by omega)

/-- An input has raised the epoch of the node, or brought it into a view, without an overflow. -/
structure Counts (S : IMsgManageable) (m : Member X) (i : Input) (o : Outcome X) : Prop where
  layDown : i = .timeout → m.role ≠ .newcomer → m.layDown.epoch = m.epoch + 1
  enter : o.entered = true → m.Fits S i

theorem Counts.of_fits {i : Input} {o : Outcome X}
    (h : i = .timeout ∨ o.entered = true → m.Fits S i) : m.Counts S i o := by
  refine ⟨?_, fun hentered => h (.inr hentered)⟩
  rintro rfl -
  exact (h (.inl rfl)).epoch_layDown

/-- A laid-down message is about its epoch and the newcomers that the node knows. -/
theorem Collects.via_eq {i : Input} {m₁ : Member X} {msg : LaidDownMsg} {data : Bytes}
    (h : m.Collects S i m₁ msg data)
    (htime : i = .timeout → m.role ≠ .newcomer → m.layDown.epoch = m.epoch + 1) :
    m.via S i = (msg.epoch, getNewcommers S m.sigOfNodesToBeAdded) ∧ m.epoch ≤ msg.epoch := by
  cases h with
  | datagram src host msg data hrole hopen hepoch =>
    refine ⟨?_, hepoch⟩
    simp only [via, hopen]
  | timeout hrole =>
    have hepoch : m.layDown.laidDownMsg.epoch = m.epoch + 1 := htime rfl hrole
    rw [hepoch]
    exact ⟨rfl, by omega⟩

omit [Pb hiPb.NewViewCertificate] in
/-- What is kept when a laid-down message is remembered. -/
theorem Collects.kept {i : Input} {m₁ : Member X} {msg : LaidDownMsg} {data : Bytes}
    (h : m.Collects S i m₁ msg data) :
    m.role ≠ .newcomer ∧ (m₁.remember msg data).allEndpoints = m.allEndpoints ∧
      (m₁.remember msg data).sigOfNodesToBeAdded = m.sigOfNodesToBeAdded := by
  cases h with
  | datagram src host msg data hrole hopen hepoch => exact ⟨hrole, rfl, rfl⟩
  | timeout hrole => exact ⟨hrole, rfl, rfl⟩

/-- A node with enough laid-down messages enters the view that they are about. -/
theorem Collects.moves_lead {i : Input} {m₁ : Member X} {msg : LaidDownMsg} {data : Bytes}
    (h : m.Collects S i m₁ msg data)
    (htime : i = .timeout → m.role ≠ .newcomer → m.layDown.epoch = m.epoch + 1)
    (hfits : m.Fits S i) (sent : List Datagram) (myList : List Bytes) :
    m.Moves S i
      { member := (m₁.remember msg data).lead S msg.epoch
        sent := sent
        cert := some (.ofPrimary msg.epoch myList (m.sigForNewcomers S))
        entered := true } := by
  obtain ⟨hvia, hle⟩ := h.via_eq htime
  obtain ⟨hm, hlist, hsigs⟩ := h.kept
  rw [Fits, viaEpoch, hvia] at hfits
  have hN : (m₁.remember msg data).N = m.N := by rw [Node.N, hlist, Node.N]
  have hlead := lead_of_fits (S := S) (m := m₁.remember msg data) hfits.1
    (by rw [hN, hsigs]; exact hfits.2)
  rw [hN, hsigs, hlist] at hlead
  refine .enter ?_ ?_ ?_ rfl ?_ ?_
  · rw [viaEpoch, hvia]
    exact hlead.2
  · rw [hvia]
    exact hlead.1
  · rw [lead_eq]
    exact Role.noConfusion
  · rw [hvia]
    exact fun _ => hle
  · intro c hc
    obtain rfl := Option.some.inj hc
    rw [hvia]
    exact ⟨hm, rfl, getNewcommers_sigForNewcomers⟩

/-- A node that accepts a certificate enters the view that it is about. -/
theorem moves_accept {i : Input} {c : NewViewCertificate} {m' : Member X}
    (hvia : m.via S i = (c.epoch, getNewcommers S c.sigOfNodesToBeAdded)) (hfits : m.Fits S i)
    (hepoch : m'.epoch = m.epochConsideringNewcomers c.epoch
      (getNewcommers S c.sigOfNodesToBeAdded).length)
    (hlist : m'.allEndpoints = m.allEndpoints ++ getNewcommers S c.sigOfNodesToBeAdded)
    (hrole : m'.role = .sub) (hle : m.role ≠ .newcomer → m.epoch ≤ c.epoch) :
    m.Moves S i { member := m', entered := true } := by
  rw [Fits, viaEpoch, hvia] at hfits
  refine .enter ?_ ?_ ?_ rfl ?_ (fun c hc => by cases hc)
  · rw [viaEpoch, hvia]
    exact hepoch.trans (epochConsideringNewcomers_of_fits hfits.1 hfits.2)
  · rw [hvia]
    exact hlist
  · rw [hrole]
    exact Role.noConfusion
  · rw [hvia]
    exact hle

/-- **What an input can do to the view of a node**, if the epoch that it gets is exact. -/
theorem moves_of_does {i : Input} {o : Outcome X} (h : m.Does S E i o) (hexact : m.Counts S i o) :
    m.Moves S i o := by
  cases h with
  | idle i hrole => exact .stay hrole rfl rfl rfl rfl rfl
  | client src data =>
    have hframe := Node.frame_handleExecute (E := E) (n := m.toNode) src data
    exact .stay nofun (congrArg (·.2.2.1) hframe) (congrArg (·.2.1) hframe)
      (congrArg (·.2.2.2.2) hframe) rfl rfl
  | view src t data hrole =>
    have hframe := Node.frame_receive (E := E) (n := m.toNode) src t data
    exact .stay nofun (congrArg (·.2.2.1) hframe) (congrArg (·.2.1) hframe)
      (congrArg (·.2.2.2.2) hframe) rfl rfl
  | addMe src data hrole => exact .stay nofun rfl rfl rfl rfl rfl
  | layDown sent hrole =>
    exact .layDown rfl hrole (hexact.layDown rfl hrole) rfl rfl rfl rfl
  | remember hcol hnew =>
    cases hcol with
    | datagram src host msg data hrole hopen hepoch => exact .stay nofun rfl rfl rfl rfl rfl
    | timeout hrole =>
      exact .layDown rfl hrole (hexact.layDown rfl hrole) rfl rfl rfl rfl
  | lead sent hcol hnew hneeded hself hstate =>
    exact hcol.moves_lead hexact.layDown (hexact.enter rfl) sent _
  | follow src hrole hparse hnew hepoch hcert =>
    refine moves_accept (by simp only [via, hparse]) (hexact.enter rfl) ?_ ?_ ?_ (fun _ => hepoch)
    · rw [follow, startListeningAsSub_eq]
      rfl
    · rw [follow, startListeningAsSub_eq]
      rfl
    · rw [follow, startListeningAsSub_eq]
  | stray src hrole hparse hcert => exact .stray hrole hrole rfl rfl
  | @join src data d hrole hparse hcert hself =>
    refine moves_accept (c := d) (by simp only [via, hparse]) (hexact.enter rfl) ?_ ?_ ?_
      (fun hm => absurd hrole hm)
    · rw [startListeningAsSub_eq]
      rfl
    · rw [startListeningAsSub_eq]
      rfl
    · rw [startListeningAsSub_eq]

/-- The epoch that a node enters. -/
theorem Moves.epoch_of_entered {i : Input} {o : Outcome X} (h : m.Moves S i o)
    (hentered : o.entered = true) : o.member.epoch = m.viaEpoch S i := by
  cases h with
  | enter hepoch hlist hrole hentered' hle hcert => exact hepoch
  | stay hi hepoch hlist hrole hstay hcert => exact absurd hentered (by simp [hstay])
  | layDown hi hm hepoch hlist hrole hstay hcert => exact absurd hentered (by simp [hstay])
  | stray hm hrole hstay hcert => exact absurd hentered (by simp [hstay])

/-- A member stays a member, and its epoch does not go back. -/
theorem Moves.mono {i : Input} {o : Outcome X} (h : m.Moves S i o) (hexact : m.Counts S i o)
    (hm : m.role ≠ .newcomer) :
    o.member.role ≠ .newcomer ∧ m.epoch ≤ o.member.epoch := by
  cases h with
  | stay hi hepoch hlist hrole hentered hcert => exact ⟨hrole ▸ hm, hepoch.ge⟩
  | layDown hi hm' hepoch hlist hrole hentered hcert => exact ⟨hrole ▸ hm, by omega⟩
  | enter hepoch hlist hrole hentered hle hcert =>
    have hvia := (hexact.enter hentered).le_viaEpoch
    have hfrom := hle hm
    exact ⟨hrole, by omega⟩
  | stray hm' hrole hentered hcert => exact absurd hm' hm

/-- A member that lays down leaves its epoch. -/
theorem Moves.epoch_timeout {o : Outcome X} (h : m.Moves S .timeout o) (hfits : m.Fits S .timeout)
    (hm : m.role ≠ .newcomer) : m.layDown.epoch ≤ o.member.epoch := by
  rw [hfits.epoch_layDown]
  cases h with
  | stay hi hepoch hlist hrole hentered hcert => exact absurd (hi rfl) hm
  | layDown hi hm' hepoch hlist hrole hentered hcert => exact hepoch.ge
  | enter hepoch hlist hrole hentered hle hcert =>
    rw [hepoch]
    exact hfits.le_viaEpoch
  | stray hm' hrole hentered hcert => exact absurd hm' hm

/-! ### The history of a node -/

/-- The history with which a node enters a view: a newcomer takes over the commands it is given, as
its executor leaves them. -/
def viaHistory (E : IForConsensusExecutable X) (m : Member X) : Input → List Cmd
  | .datagram _ .iamThePrimaryForNewcomer data =>
    match NewViewCertificate.fromString data with
    | none => m.commandHistory
    | some d => (E.executeAll m.exe d.cmds).2
  | _ => m.commandHistory

/-- The history of a member grows by what it executes. -/
theorem history_of_does {i : Input} {o : Outcome X} (h : m.Does S E i o)
    (hm : m.role ≠ .newcomer) :
    o.member.commandHistory = m.commandHistory ++ (E.executeAll m.exe o.executed).2 := by
  have hnone : m.commandHistory = m.commandHistory ++ (E.executeAll m.exe []).2 :=
    (List.append_nil _).symm
  cases h with
  | idle i hrole => exact hnone
  | client src data => exact (Node.ran_handleExecute src).2
  | view src t data hrole => exact (Node.ran_receive src t).2
  | addMe src data hrole => exact hnone
  | layDown sent hrole => exact hnone
  | remember hcol hnew =>
    cases hcol with
    | datagram src host msg data hrole hopen hepoch => exact hnone
    | timeout hrole => exact hnone
  | lead sent hcol hnew hneeded hself hstate =>
    rw [lead_eq]
    cases hcol with
    | datagram src host msg data hrole hopen hepoch => exact hnone
    | timeout hrole => exact hnone
  | follow src hrole hparse hnew hepoch hcert =>
    rw [follow, startListeningAsSub_eq]
    exact hnone
  | stray src hrole hparse hcert => exact absurd hrole hm
  | join src hrole hparse hcert hself => exact absurd hrole hm

/-- A node executes commands only within a view. -/
theorem within_of_executed {i : Input} {o : Outcome X} (h : m.Does S E i o)
    (hexec : o.executed ≠ []) : i ≠ .timeout ∧ o.entered = false := by
  cases h with
  | client src data => exact ⟨nofun, rfl⟩
  | view src t data hrole => exact ⟨nofun, rfl⟩
  | idle i hrole => exact absurd rfl hexec
  | addMe src data hrole => exact absurd rfl hexec
  | layDown sent hrole => exact absurd rfl hexec
  | remember hcol hnew => exact absurd rfl hexec
  | lead sent hcol hnew hneeded hself hstate => exact absurd rfl hexec
  | follow src hrole hparse hnew hepoch hcert => exact absurd rfl hexec
  | stray src hrole hparse hcert => exact absurd rfl hexec
  | join src hrole hparse hcert hself => exact absurd rfl hexec

theorem history_of_entered {i : Input} {o : Outcome X} (h : m.Does S E i o)
    (hentered : o.entered = true) : o.member.commandHistory = m.viaHistory E i := by
  cases h with
  | lead sent hcol hnew hneeded hself hstate =>
    rw [lead_eq]
    cases hcol with
    | datagram src host msg data hrole hopen hepoch => rfl
    | timeout hrole => rfl
  | follow src hrole hparse hnew hepoch hcert =>
    rw [Member.follow, startListeningAsSub_eq]
    rfl
  | join src hrole hparse hcert hself =>
    rw [startListeningAsSub_eq]
    simp only [viaHistory, hparse]
    rfl
  | idle i hrole => cases hentered
  | client src data => cases hentered
  | view src t data hrole => cases hentered
  | addMe src data hrole => cases hentered
  | layDown sent hrole => cases hentered
  | remember hcol hnew => cases hentered
  | stray src hrole hparse hcert => cases hentered

end Member

/-! ### The network -/

/-- What is fixed for a group of nodes. -/
structure Group (X : Type*) where
  /-- The members at the start. -/
  members : List Endpoint
  /-- The members as a newcomer knows them. -/
  listFor : Endpoint → List Endpoint
  /-- A newcomer is not among them. -/
  notMem_listFor : ∀ i ∉ members, i ∉ listFor i
  /-- The nodes, members or not, that need not follow the protocol. -/
  faulty : Finset Endpoint
  /-- The program every executor runs. -/
  exe : IForConsensusExecutable X
  /-- The executor of each node at the start. -/
  exe₀ : Endpoint → X
  /-- The signatures of each node. -/
  sig : Endpoint → IMsgManageable

/-- A node has laid down. -/
structure LaidDown where
  /-- The node. -/
  host : Endpoint
  /-- The epoch for which it has laid down. -/
  epoch : ℤ
  /-- Its history at that moment. -/
  history : List Cmd
  deriving DecidableEq

/-- A sub has executed a command. -/
structure Execution where
  /-- The sub. -/
  host : Endpoint
  /-- The command, as it went into the history. -/
  cmd : Cmd
  /-- The view. -/
  epoch : ℤ
  deriving DecidableEq

/-- A node has entered a view. -/
structure Entry where
  /-- The node. -/
  host : Endpoint
  /-- The view. -/
  epoch : ℤ
  /-- Its history at that moment. -/
  history : List Cmd
  deriving DecidableEq

/-- A new primary has admitted newcomers. -/
structure Admission where
  /-- The members before. -/
  members : List Endpoint
  /-- The epoch for which nodes had laid down. -/
  epoch : ℤ
  /-- The newcomers. -/
  newcomers : List Endpoint
  deriving DecidableEq

/-- The nodes and the network, with the history of what has happened so far, latest first. -/
structure Network (X : Type*) where
  /-- The nodes (only those of honest members matter). -/
  node : Endpoint → Member X
  /-- Every datagram sent so far. -/
  sent : List Datagram := []
  /-- Who has laid down. -/
  laidDowns : List LaidDown := []
  /-- What subs have executed. -/
  executions : List Execution := []
  /-- Who has entered a view. -/
  entries : List Entry := []
  /-- Which newcomers have been admitted. -/
  admissions : List Admission := []

namespace Network

/-- What can happen. -/
inductive Event
  /-- A client calls `handle_execute` at the node `dst`, giving `src` as its name. -/
  | client (dst src : Endpoint) (data : Cmd)
  /-- The network delivers a datagram. -/
  | deliver (d : Datagram)
  /-- A faulty node sends a datagram. -/
  | inject (d : Datagram)
  /-- The patience of a node runs out. -/
  | timeout (i : Endpoint)
  /-- A newcomer asks to be added. -/
  | pleaseAddMe (i : Endpoint)
  deriving DecidableEq

/-- The node to which something happens, and what. -/
def Event.input : Event → Option (Endpoint × Member.Input)
  | .client dst src data => some (dst, .client src data)
  | .deliver d => some (d.dst, .datagram d.src d.route d.data)
  | .timeout i => some (i, .timeout)
  | .inject _ => none
  | .pleaseAddMe _ => none

/-- A condition on the inputs that come to nodes, as a condition on events. -/
def When {X : Type*} (C : Network X → Endpoint → Member.Input → Prop) (s : Network X) (l : Event) :
    Prop :=
  ∀ i inp, l.input = some (i, inp) → C s i inp

instance {X : Type*} {C : Network X → Endpoint → Member.Input → Prop}
    [∀ s i inp, Decidable (C s i inp)] (s : Network X) (l : Event) : Decidable (When C s l) :=
  match h : l.input with
  | none => isTrue fun _ _ hl => by cases h.symm.trans hl
  | some (i, inp) =>
    decidable_of_iff (C s i inp) ⟨fun hC _ _ hl => by cases h.symm.trans hl; exact hC,
      fun hC => hC i inp h⟩

end Network

namespace Group

variable {X : Type*} (G : Group X)

/-- `i` follows the protocol. -/
def Honest (i : Endpoint) : Prop := i ∉ G.faulty

instance (i : Endpoint) : Decidable (G.Honest i) := inferInstanceAs (Decidable (¬_))

/-- A node at the start. -/
def start (i : Endpoint) : Member X :=
  .start i (if i ∈ G.members then G.members else G.listFor i) (G.exe₀ i)

/-- The network at the start. -/
def init : Network X := { node := G.start }

/-- Which events may happen. -/
def Enabled (s : Network X) : Network.Event → Prop
  | .client dst _ _ => G.Honest dst
  | .deliver d => d ∈ s.sent ∧ G.Honest d.dst
  | .inject d => d.src ∈ G.faulty
  | .timeout i => G.Honest i
  | .pleaseAddMe i => G.Honest i ∧ (s.node i).role = .newcomer

instance (s : Network X) (l : Network.Event) : Decidable (G.Enabled s l) :=
  match l with
  | .client dst _ _ => inferInstanceAs (Decidable (G.Honest dst))
  | .deliver _ => inferInstanceAs (Decidable (_ ∧ _))
  | .inject d => inferInstanceAs (Decidable (d.src ∈ G.faulty))
  | .timeout i => inferInstanceAs (Decidable (G.Honest i))
  | .pleaseAddMe _ => inferInstanceAs (Decidable (_ ∧ _))

variable [Pb hiPb.LaidDownMsg] [Pb hiPb.NewViewCertificate]

/-- What the node `i` does. -/
def outcome (s : Network X) (i : Endpoint) (inp : Member.Input) : Outcome X :=
  (s.node i).handle (G.sig i) G.exe inp

/-- The books after an input that has left `o` behind at the node `i`. -/
def apply (s : Network X) (i : Endpoint) (inp : Member.Input) (o : Outcome X) : Network X where
  node := Function.update s.node i o.member
  sent := s.sent ++ o.sent
  laidDowns :=
    if inp = .timeout ∧ (s.node i).role ≠ .newcomer then
      ⟨i, (s.node i).layDown.epoch, (s.node i).commandHistory⟩ :: s.laidDowns
    else s.laidDowns
  executions :=
    if (s.node i).role = .sub then
      ((G.exe.executeAll (s.node i).exe o.executed).2.map
        fun c => ⟨i, c, (s.node i).epoch⟩) ++ s.executions
    else s.executions
  entries :=
    if o.entered then ⟨i, o.member.epoch, o.member.commandHistory⟩ :: s.entries else s.entries
  admissions :=
    match o.cert with
    | none => s.admissions
    | some c =>
      let newcomers := getNewcommers (G.sig i) c.sigOfNodesToBeAdded
      if newcomers.isEmpty then s.admissions
      else ⟨(s.node i).allEndpoints, c.epoch, newcomers⟩ :: s.admissions

/-- An input comes to the node `i`. -/
def step (s : Network X) (i : Endpoint) (inp : Member.Input) : Network X :=
  G.apply s i inp (G.outcome s i inp)

/-- The effect of an event. -/
def act (s : Network X) : Network.Event → Network X
  | .client dst src data => G.step s dst (.client src data)
  | .deliver d => G.step s d.dst (.datagram d.src d.route d.data)
  | .timeout i => G.step s i .timeout
  | .inject d => { s with sent := s.sent ++ [d] }
  | .pleaseAddMe i => { s with sent := s.sent ++ (s.node i).pleaseAddMe (G.sig i) }

/-- The group as a system. -/
def sys : Sys (Network X) Network.Event where
  init s := s = G.init
  enabled := G.Enabled
  act := G.act

instance (s : Network X) (l : Network.Event) : Decidable (G.sys.enabled s l) :=
  inferInstanceAs (Decidable (G.Enabled s l))

/-- The epochs are exact: if the node raises its epoch or enters a view, they fit into an `int`. -/
def Exact (s : Network X) (i : Endpoint) (inp : Member.Input) : Prop :=
  inp = .timeout ∨ (G.outcome s i inp).entered = true → (s.node i).Fits (G.sig i) inp

instance (s : Network X) (i : Endpoint) (inp : Member.Input) : Decidable (G.Exact s i inp) :=
  inferInstanceAs (Decidable (_ → (s.node i).Fits (G.sig i) inp))

variable {G}

omit [Pb hiPb.LaidDownMsg] [Pb hiPb.NewViewCertificate] in
theorem node_apply_of_ne {s : Network X} {i j : Endpoint} (inp : Member.Input) (o : Outcome X)
    (h : j ≠ i) : (G.apply s i inp o).node j = s.node j :=
  Function.update_of_ne h _ _

omit [Pb hiPb.LaidDownMsg] [Pb hiPb.NewViewCertificate] in
theorem node_apply_self (s : Network X) (i : Endpoint) (inp : Member.Input) (o : Outcome X) :
    (G.apply s i inp o).node i = o.member :=
  Function.update_self _ _ _

/-- **Invariants of a network**: what the start has, what does not depend on the datagrams, and what
every input to an honest node keeps. -/
theorem invariant {C : Network X → Endpoint → Member.Input → Prop} {I : Network X → Prop}
    (h₀ : I G.init) (hsent : ∀ s ds, I s → I { s with sent := ds })
    (hstep : ∀ s i inp, (G.sys.only (Network.When C)).Reach s → I s → G.Honest i → C s i inp →
      I (G.step s i inp)) {s : Network X} (h : (G.sys.only (Network.When C)).Reach s) : I s := by
  refine h.invariant ?_ ?_
  · rintro _ rfl
    exact h₀
  · intro s l hs hI hl
    cases l with
    | client dst src data => exact hstep s dst _ hs hI hl.1 (hl.2 _ _ rfl)
    | deliver d => exact hstep s d.dst _ hs hI hl.1.2 (hl.2 _ _ rfl)
    | timeout i => exact hstep s i _ hs hI hl.1 (hl.2 _ _ rfl)
    | inject d => exact hsent s _ hI
    | pleaseAddMe i => exact hsent s _ hI

end Group

/-- A group without faulty nodes, whose executors leave the commands alone. -/
def mockGroup (members : List Endpoint) : Group Unit where
  members := members
  listFor _ := members
  notMem_listFor _ h := h
  faulty := ∅
  exe := mockExecutable
  exe₀ _ := ()
  sig := naiveMsgMgr

end Rbft

end WeakChain
