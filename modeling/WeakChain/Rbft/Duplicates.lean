import WeakChain.Rbft.Cluster
import WeakChain.Rbft.ViewChange

/-!
# Requests that come again

The primary looks a command up in `received_commands` before it executes it, "ignoring duplicated
cmd"; entering a view clears the set.  Nothing ever puts a command into it
(`receivedCommands_of_reach`), so a primary executes and broadcasts every command as often as it is
requested while no view change is going on (`log_eq`).
-/

namespace WeakChain

namespace Rbft

variable {X : Type*}

/-! ### The set of the commands received -/

namespace Node

variable {E : IForConsensusExecutable X} {n : Node X}

theorem WithinView.receivedCommands_eq {n' : Node X} (h : WithinView n n') :
    n'.receivedCommands = n.receivedCommands := by
  obtain ⟨_, _, _, _, rfl⟩ := h
  rfl

/-- A primary listens to requests only. -/
theorem receive_of_primary (h : n.role = .primary) (src : Endpoint) (t : Target) (c : Cmd) :
    n.receive E src t c =
      match t with
      | .pleaseExecuteThis => n.handleExecuteForPrimary1 E src c
      | _ => { node := n } := by
  unfold receive
  rw [h]
  cases t <;> rfl

/-- A primary that has received nothing executes and broadcasts every command. -/
theorem handleExecuteForPrimary1_of_empty (h : n.receivedCommands = ∅) (e : Endpoint) (c : Cmd) :
    n.handleExecuteForPrimary1 E e c =
      if n.viewChangeState then { node := n }
      else
        { node := n.finallyExecuteIt E c
          sent := n.boardcastToOthers .pleaseExecuteThis c
          executed := [c]
          ordered := [c] } := by
  rw [handleExecuteForPrimary1, h]
  simp

end Node

namespace Member

variable {S : IMsgManageable} {E : IForConsensusExecutable X} {m : Member X}
variable [Pb hiPb.LaidDownMsg] [Pb hiPb.NewViewCertificate]

/-- Nothing is put into the set by any input. -/
theorem receivedCommands_of_does {i : Input} {o : Outcome X} (h : m.Does S E i o)
    (hm : m.receivedCommands = ∅) : o.member.receivedCommands = ∅ := by
  cases h with
  | idle i hrole => exact hm
  | client src data =>
    exact (Node.withinView_handleExecute src data).receivedCommands_eq.trans hm
  | view src t data hrole => exact (Node.withinView_receive src t data).receivedCommands_eq.trans hm
  | addMe src data hrole => exact hm
  | layDown sent hrole => exact hm
  | remember hcol hnew => cases hcol <;> exact hm
  | lead sent hcol hnew hneeded hself hstate => rw [lead_eq]
  | follow src hrole hparse hnew hepoch hcert => rw [follow, startListeningAsSub_eq]; rfl
  | stray src hrole hparse hcert => exact hm
  | join src hrole hparse hcert hself => rw [startListeningAsSub_eq]; rfl

/-- **The set stays empty** in every run. -/
theorem receivedCommands_of_reach (h : (sys S E).Reach m) : m.receivedCommands = ∅ := by
  refine h.invariant (I := fun m => m.receivedCommands = ∅) ?_ ?_
  · rintro _ ⟨ep, eps, x, rfl⟩
    rfl
  · intro m i _ hm _
    exact receivedCommands_of_does (does_handle i) hm

/-! ### What a primary does with its requests -/

omit [Pb hiPb.LaidDownMsg] [Pb hiPb.NewViewCertificate] in
/-- The commands that an input requests, from a client or forwarded by a sub. -/
def Input.requested : Input → List Cmd
  | .client _ data => [data]
  | .datagram _ (.view .pleaseExecuteThis) data => [data]
  | _ => []

omit [Pb hiPb.LaidDownMsg] [Pb hiPb.NewViewCertificate] in
/-- The commands that an input makes the node broadcast as orders. -/
def ordered (E : IForConsensusExecutable X) (m : Member X) : Input → List Cmd
  | .client src data => (m.toNode.handleExecute E src data).ordered
  | .datagram src (.view t) data => (m.toNode.receive E src t data).ordered
  | _ => []

omit [Pb hiPb.LaidDownMsg] [Pb hiPb.NewViewCertificate] in
/-- The requests that a node takes: none during a view change. -/
def taken (m : Member X) (i : Input) : List Cmd := if m.viewChangeState then [] else i.requested

/-- The node is the primary of its view. -/
structure LeadsView (m : Member X) : Prop where
  role : m.role = .primary
  primary : m.viewChangeState = false → m.primary = m.listenedEndpoint

omit [Pb hiPb.LaidDownMsg] [Pb hiPb.NewViewCertificate] in
/-- A primary that lays down stays one that takes no requests. -/
theorem LeadsView.layDown (h : m.LeadsView) : m.layDown.LeadsView := ⟨h.role, nofun⟩

/-- What comes neither from a client nor within the view executes nothing. -/
theorem quiet_of_does {i : Input} {o : Outcome X} (h : m.Does S E i o) (hm : m.LeadsView)
    (hclient : ∀ src data, i ≠ .client src data)
    (hview : ∀ src t data, i ≠ .datagram src (.view t) data) (hstay : o.entered = false) :
    o.executed = [] ∧ o.member.LeadsView := by
  cases h with
  | idle i hrole => exact ⟨rfl, hm⟩
  | client src data => exact absurd rfl (hclient src data)
  | view src t data hrole => exact absurd rfl (hview src t data)
  | addMe src data hrole => exact ⟨rfl, hm.role, hm.primary⟩
  | layDown sent hrole => exact ⟨rfl, hm.layDown⟩
  | remember hcol hnew =>
    cases hcol with
    | datagram src host msg data hrole hopen hepoch => exact ⟨rfl, hm.role, hm.primary⟩
    | timeout hrole => exact ⟨rfl, hm.layDown.role, hm.layDown.primary⟩
  | lead sent hcol hnew hneeded hself hstate => cases hstay
  | follow src hrole hparse hnew hepoch hcert => cases hstay
  | stray src hrole hparse hcert => cases hm.role.symm.trans hrole
  | join src hrole hparse hcert hself => cases hstay

omit [Pb hiPb.LaidDownMsg] [Pb hiPb.NewViewCertificate] in
/-- A client is served like a datagram. -/
theorem handleExecute_of_leads (h : m.LeadsView) (src : Endpoint) (data : Cmd) :
    m.toNode.handleExecute E src data = m.toNode.handleExecuteForPrimary1 E src data := by
  rw [Node.handleExecute]
  split_ifs with hprimary
  · rfl
  · cases hview : m.viewChangeState with
    | true =>
      rw [Node.handleExecuteForSub1, Node.handleExecuteForPrimary1, if_pos hview, if_pos hview]
    | false => exact absurd (by simp [Node.isPrimary, hview, h.primary hview]) hprimary

omit [Pb hiPb.LaidDownMsg] [Pb hiPb.NewViewCertificate] in
/-- A request is taken, executed and broadcast, unless a view change is going on. -/
theorem request_of_leads (h : m.LeadsView) (hempty : m.receivedCommands = ∅) (src : Endpoint)
    (data : Cmd) :
    let o := m.toNode.handleExecuteForPrimary1 E src data
    o.executed = (if m.viewChangeState then [] else [data]) ∧
      o.ordered = (if m.viewChangeState then [] else [data]) ∧ (m.withView o).member.LeadsView := by
  intro o
  have ho : o = _ := Node.handleExecuteForPrimary1_of_empty hempty src data
  rw [ho]
  split_ifs
  · exact ⟨rfl, rfl, h⟩
  · exact ⟨rfl, rfl, h.role, h.primary⟩

/-- **One input**: a primary executes and broadcasts what it takes, and stays the primary until it
enters another view. -/
theorem handle_of_leads (h : m.LeadsView) (hempty : m.receivedCommands = ∅) (i : Input)
    (hstay : (m.handle S E i).entered = false) :
    (m.handle S E i).executed = m.taken i ∧ m.ordered E i = m.taken i ∧
      (m.handle S E i).member.LeadsView := by
  cases i with
  | client src data =>
    obtain ⟨hexec, hord, hleads⟩ := request_of_leads (E := E) h hempty src data
    rw [← handleExecute_of_leads h] at hexec hord hleads
    exact ⟨hexec, hord, hleads⟩
  | timeout =>
    have hquiet := quiet_of_does (does_handle .timeout) h nofun nofun hstay
    have htaken : m.taken .timeout = [] := by simp [taken, Input.requested]
    rw [htaken]
    exact ⟨hquiet.1, rfl, hquiet.2⟩
  | datagram src route data =>
    by_cases hview : ∃ t, route = .view t
    · obtain ⟨t, rfl⟩ := hview
      have hhandle : m.handle S E (.datagram src (.view t) data) =
          m.withView (m.toNode.receive E src t data) :=
        receive_of_member src (.view t) data (by simp [h.role])
      rw [hhandle, ordered, Node.receive_of_primary h.role]
      cases t with
      | pleaseExecuteThis => exact request_of_leads h hempty src data
      | pleaseConfirmThis => simpa [taken, Input.requested, withView] using h
      | pleaseCommitThis => simpa [taken, Input.requested, withView] using h
    · have hne : ∀ src' t data',
          Input.datagram src route data ≠ .datagram src' (.view t) data' := by
        intro src' t data' heq
        cases heq
        exact hview ⟨t, rfl⟩
      have hquiet := quiet_of_does (does_handle (.datagram src route data)) h nofun hne hstay
      have hnone : m.taken (.datagram src route data) = [] ∧
          m.ordered E (.datagram src route data) = [] := by
        cases route with
        | view t => exact absurd ⟨t, rfl⟩ hview
        | _ => simp [taken, Input.requested, ordered]
      rw [hnone.1, hnone.2]
      exact ⟨hquiet.1, rfl, hquiet.2⟩

/-! ### Runs -/

variable (S E)

/-- The inputs leave the node in its view. -/
def StaysInView : Member X → List Input → Prop
  | _, [] => True
  | m, i :: is => (m.handle S E i).entered = false ∧ StaysInView (m.handle S E i).member is

/-- What a list of inputs makes the node execute, and what it broadcasts as orders. -/
def log : Member X → List Input → List Cmd × List Cmd
  | _, [] => ([], [])
  | m, i :: is =>
    let rest := log (m.handle S E i).member is
    ((m.handle S E i).executed ++ rest.1, m.ordered E i ++ rest.2)

/-- The requests among the inputs that come while no view change is going on. -/
def takenAll : Member X → List Input → List Cmd
  | _, [] => []
  | m, i :: is => m.taken i ++ takenAll (m.handle S E i).member is

variable {S E}

/-- Everything that is taken is executed and broadcast. -/
theorem log_eq (hr : (sys S E).Reach m) (h : m.LeadsView) {is : List Input}
    (hview : StaysInView S E m is) : log S E m is = (takenAll S E m is, takenAll S E m is) := by
  induction is generalizing m with
  | nil => rfl
  | cons i is ih =>
    obtain ⟨hexec, hord, hleads⟩ := handle_of_leads h (receivedCommands_of_reach hr) i hview.1
    have hr' : (sys S E).Reach (m.handle S E i).member := Sys.Reach.act (l := i) hr trivial
    have hrest := ih hr' hleads hview.2
    rw [log, takenAll, hrest, hexec, hord]

/-- **Duplicates.**  In every run within a view, a primary executes and broadcasts every command at
most once if and only if no command is requested twice while no view change is going on. -/
theorem nodup_log_iff (hr : (sys S E).Reach m) (h : m.LeadsView) {is : List Input}
    (hview : StaysInView S E m is) :
    ((log S E m is).1.Nodup ∧ (log S E m is).2.Nodup) ↔ (takenAll S E m is).Nodup := by
  rw [log_eq hr h hview, and_self_iff]

/-- The first member of a group of two. -/
def firstOfTwo : Member Unit := start (ascii "A") [ascii "A", ascii "B"] ()

omit [Pb hiPb.LaidDownMsg] [Pb hiPb.NewViewCertificate] in
theorem leads_firstOfTwo : firstOfTwo.LeadsView := ⟨by decide, fun _ => by decide⟩

omit [Pb hiPb.LaidDownMsg] [Pb hiPb.NewViewCertificate] in
/-- Two commands, one from a client and one that a sub has forwarded. -/
theorem nodup_log_iff_two :
    let _ : Pb hiPb.LaidDownMsg := Wire.pb hiPb.LaidDownMsg
    let _ : Pb hiPb.NewViewCertificate := Wire.pb hiPb.NewViewCertificate
    let S := naiveMsgMgr (ascii "A")
    let is : List Input := [.client (ascii "user") (ascii "c"),
      .datagram (ascii "B") (.view .pleaseExecuteThis) (ascii "d")]
    ((log S mockExecutable firstOfTwo is).1.Nodup ∧ (log S mockExecutable firstOfTwo is).2.Nodup) ↔
      (takenAll S mockExecutable firstOfTwo is).Nodup := by
  intro _ _ S is
  exact nodup_log_iff (.init ⟨_, _, _, rfl⟩) leads_firstOfTwo ⟨rfl, rfl, trivial⟩

omit [Pb hiPb.LaidDownMsg] [Pb hiPb.NewViewCertificate] in
/-- A client asks the primary, and asks again through the other member. -/
theorem not_nodup_log :
    let _ : Pb hiPb.LaidDownMsg := Wire.pb hiPb.LaidDownMsg
    let _ : Pb hiPb.NewViewCertificate := Wire.pb hiPb.NewViewCertificate
    let S := naiveMsgMgr (ascii "A")
    let is : List Input := [.client (ascii "user") (ascii "c"),
      .datagram (ascii "B") (.view .pleaseExecuteThis) (ascii "c")]
    (sys S mockExecutable).Reach firstOfTwo ∧ firstOfTwo.LeadsView ∧
      StaysInView S mockExecutable firstOfTwo is ∧
      log S mockExecutable firstOfTwo is =
        ([ascii "c", ascii "c"], [ascii "c", ascii "c"]) ∧
      ¬((log S mockExecutable firstOfTwo is).1.Nodup ∧
        (log S mockExecutable firstOfTwo is).2.Nodup) := by
  intro _ _ S is
  have hlog : log S mockExecutable firstOfTwo is =
      ([ascii "c", ascii "c"], [ascii "c", ascii "c"]) := by decide +kernel
  refine ⟨.init ⟨_, _, _, rfl⟩, leads_firstOfTwo, ⟨rfl, rfl, trivial⟩, hlog, ?_⟩
  rw [hlog]
  simp

end Member

end Rbft

end WeakChain
