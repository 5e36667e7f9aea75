import WeakChain.Rbft.Network

/-!
# The epochs of a node

The epoch of a member is written in four places: `trigger_view_change` counts it up,
`try_to_be_primary` and `handle_new_primary` set it to the epoch of the laid-down messages, with the
newcomers taken into account, and so does a newcomer that joins.  Every one of them has a guard of
its own, and together they keep it from going back (`epoch_le_handle`).

`Leads` says when a laid-down message makes the node the primary.  The list of the messages is not
cleared by that, and the test is `>=`, so a message that comes late makes it the primary of the same
epoch once more, with the newcomers that have asked in between.  In runs without such messages it
broadcasts one certificate for an epoch (`epochs_nodup`).
-/

namespace WeakChain

namespace Rbft

namespace Member

variable {X : Type*} {S : IMsgManageable} {E : IForConsensusExecutable X} {m : Member X}

variable [Pb hiPb.LaidDownMsg] [Pb hiPb.NewViewCertificate]

instance (i : Input) : Decidable ((sys S E).enabled m i) := inferInstanceAs (Decidable True)

/-! ### Epochs only grow -/

/-- What an input makes the node compute for its epoch fits into an `int`: the next epoch if the
patience runs out, and the epoch of the view if it enters one.  (The certificate of a newcomer is
not compared with an epoch; with a negative one the product of the `size_t`s does not fit.) -/
def InRange (S : IMsgManageable) (E : IForConsensusExecutable X) (m : Member X) (i : Input) :
    Prop :=
  (i = .timeout → m.epoch + 1 < 2 ^ 31) ∧
    ((m.handle S E i).entered = true →
      m.viaEpoch S i < 2 ^ 31 ∧ (m.role = .newcomer → 0 ≤ (m.via S i).1))

instance (i : Input) : Decidable (m.InRange S E i) := inferInstanceAs (Decidable (_ ∧ _))

/-- A member enters views of its epoch or later ones. -/
theorem epoch_le_via {i : Input} {o : Outcome X} (h : m.Does S E i o) (hentered : o.entered = true)
    (hm : m.role ≠ .newcomer)
    (htime : i = .timeout → m.role ≠ .newcomer → m.layDown.epoch = m.epoch + 1) :
    m.epoch ≤ (m.via S i).1 := by
  cases h with
  | lead sent hcol hnew hneeded hself hstate =>
    obtain ⟨hvia, hle⟩ := hcol.via_eq htime
    rw [hvia]
    exact hle
  | follow src hrole hparse hnew hepoch hcert =>
    simp only [via, hparse]
    exact hepoch
  | join src hrole hparse hcert hself => exact absurd hrole hm
  | idle i hrole => cases hentered
  | client src data => cases hentered
  | view src t data hrole => cases hentered
  | addMe src data hrole => cases hentered
  | layDown sent hrole => cases hentered
  | remember hcol hnew => cases hentered
  | stray src hrole hparse hcert => cases hentered

/-- As long as everything fits, nothing overflows. -/
theorem InRange.counts {i : Input} (h : m.InRange S E i) (hm : m.role ≠ .newcomer → 0 ≤ m.epoch) :
    m.Counts S i (m.handle S E i) := by
  have htime : i = .timeout → m.role ≠ .newcomer → m.layDown.epoch = m.epoch + 1 := by
    intro hi hrole
    have hlt := h.1 hi
    have hnonneg := hm hrole
    exact int32_of_lt (by omega) hlt
  refine ⟨htime, ?_⟩
  intro hentered
  obtain ⟨hlt, hnewcomer⟩ := h.2 hentered
  refine ⟨?_, hlt⟩
  by_cases hrole : m.role = .newcomer
  · exact hnewcomer hrole
  · exact (hm hrole).trans (epoch_le_via (does_handle i) hentered hrole htime)

/-- One input keeps the epoch of a member from being negative. -/
theorem Moves.epoch_nonneg {i : Input} {o : Outcome X} (h : m.Moves S i o)
    (hexact : m.Counts S i o) (hm : m.role ≠ .newcomer → 0 ≤ m.epoch) :
    o.member.role ≠ .newcomer → 0 ≤ o.member.epoch := by
  intro hrole'
  cases h with
  | stay hi hepoch hlist hrole hentered hcert =>
    rw [hrole] at hrole'
    rw [hepoch]
    exact hm hrole'
  | layDown hi hmember hepoch hlist hrole hentered hcert =>
    have hnonneg := hm hmember
    omega
  | enter hepoch hlist hrole hentered hle hcert =>
    have hfits := hexact.enter hentered
    rw [hepoch]
    exact hfits.1.trans hfits.le_viaEpoch
  | stray hmember hrole hentered hcert => exact absurd hrole hrole'

theorem epoch_nonneg_of_reach (h : ((sys S E).only (InRange S E)).Reach m) :
    m.role ≠ .newcomer → 0 ≤ m.epoch := by
  refine h.invariant (I := fun m => m.role ≠ .newcomer → 0 ≤ m.epoch) ?_ ?_
  · rintro m ⟨self, all, exe, rfl⟩ -
    exact le_rfl
  · intro m i _ hm hi
    have hexact := hi.2.counts hm
    exact (moves_of_does (does_handle i) hexact).epoch_nonneg hexact hm

/-- **Epochs only grow.**  In every run of a node, whatever arrives and whenever its patience runs
out, as long as the epochs it computes fit into an `int`: the epoch of a member is not negative, and
no input makes it smaller. -/
theorem epoch_le_handle (h : ((sys S E).only (InRange S E)).Reach m) (hm : m.role ≠ .newcomer) :
    0 ≤ m.epoch ∧ ∀ i, m.InRange S E i → m.epoch ≤ (m.handle S E i).member.epoch := by
  have hnonneg := epoch_nonneg_of_reach h
  refine ⟨hnonneg hm, ?_⟩
  intro i hi
  have hexact := hi.counts hnonneg
  exact ((moves_of_does (does_handle i) hexact).mono hexact hm).2

omit [Pb hiPb.LaidDownMsg] [Pb hiPb.NewViewCertificate] in
/-- A node of a group of two becomes the primary of epoch 1; when its patience runs out, its epoch
grows. -/
theorem epoch_le_handle_two :
    let _ : Pb hiPb.LaidDownMsg := Wire.pb hiPb.LaidDownMsg
    let _ : Pb hiPb.NewViewCertificate := Wire.pb hiPb.NewViewCertificate
    let S := naiveMsgMgr (ascii "B")
    ∃ m, ((sys S mockExecutable).only (InRange S mockExecutable)).Reach m ∧
      m.role = .primary ∧ m.InRange S mockExecutable .timeout ∧
      m.epoch ≤ (m.handle S mockExecutable .timeout).member.epoch := by
  intro _ _ S
  let laidDown := (naiveMsgMgr (ascii "A")).prepareMsg
    (LaidDownMsg.toString ⟨ascii "Hi", 1, ascii "<mocked-state>"⟩)
  obtain ⟨m, hreach, hrole, hrange⟩ := Sys.exists_reach_of_exec
    (A := (sys S mockExecutable).only (InRange S mockExecutable))
    (s := start (ascii "B") [ascii "A", ascii "B"] ())
    (P := fun m => m.role = .primary ∧ m.InRange S mockExecutable .timeout) ⟨_, _, _, rfl⟩
    [.datagram (ascii "A") .iLaidDown laidDown, .timeout] (by decide +kernel)
  have hm : m.role ≠ .newcomer := by simp [hrole]
  exact ⟨m, hreach, hrole, hrange, (epoch_le_handle hreach hm).2 _ hrange⟩

/-! ### One certificate for an epoch -/

/-- The laid-down message that an input brings, with its signed form: one that arrives for an epoch
that is not over, or the node's own. -/
def collected (S : IMsgManageable) (m : Member X) : Input → Option (LaidDownMsg × Bytes)
  | .datagram _ .iLaidDown data =>
    match openLaidDown S data with
    | none => none
    | some (_, msg) => if msg.epoch < m.epoch then none else some (msg, data)
  | .timeout => some (m.layDown.laidDownMsg, S.prepareMsg m.layDown.laidDownMsg.toString)
  | _ => none

/-- The laid-down message that an input brings is new, it is for this node, with its state, and
there are `N() - f()` with it. -/
def Leads (S : IMsgManageable) (m : Member X) (i : Input) : Prop :=
  m.role ≠ .newcomer ∧ ∃ c ∈ m.collected S i,
    c.2 ∉ m.laidDownHistory c.1.epoch c.1.state ∧
      m.needed ≤ (m.extendedList c.1 c.2).length ∧
      m.memberAt c.1.epoch = m.listenedEndpoint ∧ m.getState = c.1.state

instance (i : Input) : Decidable (m.Leads S i) := inferInstanceAs (Decidable (_ ∧ _))

/-- A node that broadcasts a certificate has got the last message that it needs. -/
theorem leads_of_does {i : Input} {o : Outcome X} (h : m.Does S E i o) (hcert : o.cert ≠ none) :
    m.Leads S i := by
  cases h with
  | lead sent hcol hnew hneeded hself hstate =>
    cases hcol with
    | datagram src host msg data hrole hopen hepoch =>
      refine ⟨hrole, (_, _), ?_, hnew, hneeded, hself, hstate⟩
      simp [collected, hopen, not_lt.2 hepoch]
    | timeout hrole => exact ⟨hrole, _, rfl, hnew, hneeded, hself, hstate⟩
  | idle i hrole => exact absurd rfl hcert
  | client src data => exact absurd rfl hcert
  | view src t data hrole => exact absurd rfl hcert
  | addMe src data hrole => exact absurd rfl hcert
  | layDown sent hrole => exact absurd rfl hcert
  | remember hcol hnew => exact absurd rfl hcert
  | follow src hrole hparse hnew hepoch hcert' => exact absurd rfl hcert
  | stray src hrole hparse hcert' => exact absurd rfl hcert
  | join src hrole hparse hcert' hself => exact absurd rfl hcert

/-- The view change is over when the node enters a view, and goes on when it lays down. -/
theorem viewChangeState_of_does {i : Input} {o : Outcome X} (h : m.Does S E i o) :
    o.member.viewChangeState =
      if o.entered then false
      else if i = .timeout ∧ m.role ≠ .newcomer then true else m.viewChangeState := by
  cases h with
  | idle i hrole =>
    have hi : ¬(i = .timeout ∧ m.role ≠ .newcomer) := fun hi => hi.2 (hrole hi.1)
    simp [hi]
  | client src data =>
    have hframe := Node.frame_handleExecute (E := E) (n := m.toNode) src data
    exact congrArg (·.2.2.2.1) hframe
  | view src t data hrole =>
    have hframe := Node.frame_receive (E := E) (n := m.toNode) src t data
    exact congrArg (·.2.2.2.1) hframe
  | addMe src data hrole => rfl
  | layDown sent hrole => simp [Member.layDown, hrole]
  | remember hcol hnew =>
    cases hcol with
    | datagram src host msg data hrole hopen hepoch => rfl
    | timeout hrole => simp [Member.remember, setLaidDown, Member.layDown, hrole]
  | lead sent hcol hnew hneeded hself hstate => rw [lead_eq]; rfl
  | follow src hrole hparse hnew hepoch hcert => rw [Member.follow, startListeningAsSub_eq]; rfl
  | stray src hrole hparse hcert => rfl
  | join src hrole hparse hcert hself => rw [startListeningAsSub_eq]; rfl

/-- A node with the certificates that it has broadcast, in order. -/
structure Announcer (X : Type*) where
  /-- The node. -/
  member : Member X
  /-- What it has broadcast under `/IamThePrimary`. -/
  certs : List NewViewCertificate

variable (S E) in
/-- One node under any inputs, from the constructor on, with what it broadcasts. -/
def announcing : Sys (Announcer X) Input where
  init s := ∃ self all exe, s = ⟨start self all exe, []⟩
  enabled _ _ := True
  act s i := ⟨(s.member.handle S E i).member, s.certs ++ (s.member.handle S E i).cert.toList⟩

instance (s : Announcer X) (i : Input) : Decidable ((announcing S E).enabled s i) :=
  inferInstanceAs (Decidable True)

/-- A laid-down message for the epoch of a view that the node is in already is the last one that it
needs. -/
def Late (S : IMsgManageable) (m : Member X) (i : Input) : Prop :=
  m.viewChangeState = false ∧ (m.via S i).1 = m.epoch ∧ m.Leads S i

instance (i : Input) : Decidable (m.Late S i) := inferInstanceAs (Decidable (_ ∧ _ ∧ _))

/-- The epochs fit into an `int`, and no laid-down message comes too late. -/
def InTime (S : IMsgManageable) (E : IForConsensusExecutable X) (s : Announcer X) (i : Input) :
    Prop :=
  s.member.InRange S E i ∧ ¬s.member.Late S i

instance (s : Announcer X) (i : Input) : Decidable (InTime S E s i) :=
  inferInstanceAs (Decidable (_ ∧ _))

/-- The certificates that a node has broadcast are for different epochs, and these are over when it
has laid down. -/
structure Announcer.Ledger (s : Announcer X) : Prop where
  nonneg : s.member.role ≠ .newcomer → 0 ≤ s.member.epoch
  newcomer : s.member.role = .newcomer → s.certs = []
  le : ∀ c ∈ s.certs, c.epoch ≤ s.member.epoch
  lt : s.member.viewChangeState = true → ∀ c ∈ s.certs, c.epoch < s.member.epoch
  nodup : (s.certs.map NewViewCertificate.epoch).Nodup

omit [Pb hiPb.LaidDownMsg] [Pb hiPb.NewViewCertificate] in
/-- The ledger of a node that broadcasts nothing. -/
theorem Announcer.Ledger.of_none {s : Announcer X} {m' : Member X} (h : s.Ledger)
    (hnonneg : m'.role ≠ .newcomer → 0 ≤ m'.epoch)
    (hnewcomer : m'.role = .newcomer → s.certs = [])
    (hle : s.certs ≠ [] → s.member.epoch ≤ m'.epoch)
    (hview : s.certs ≠ [] → m'.viewChangeState = true →
      s.member.viewChangeState = true ∨ s.member.epoch < m'.epoch) :
    Announcer.Ledger ⟨m', s.certs⟩ := by
  refine ⟨hnonneg, hnewcomer, ?_, ?_, h.nodup⟩
  · intro c hc
    exact (h.le c hc).trans (hle (List.ne_nil_of_mem hc))
  · intro hchange c hc
    have hle' := hle (List.ne_nil_of_mem hc)
    rcases hview (List.ne_nil_of_mem hc) hchange with hold | hlt
    · exact (h.lt hold c hc).trans_le hle'
    · exact (h.le c hc).trans_lt hlt

omit [Pb hiPb.LaidDownMsg] [Pb hiPb.NewViewCertificate] in
/-- The certificate of an epoch that is not over is new. -/
theorem Announcer.Ledger.of_some {s : Announcer X} {m' : Member X} {c : NewViewCertificate}
    (h : s.Ledger) (hnonneg : m'.role ≠ .newcomer → 0 ≤ m'.epoch) (hrole : m'.role ≠ .newcomer)
    (hview : m'.viewChangeState = false) (hfrom : s.member.epoch ≤ c.epoch)
    (hto : c.epoch ≤ m'.epoch)
    (hlate : s.member.epoch = c.epoch → s.member.viewChangeState = true) :
    Announcer.Ledger ⟨m', s.certs ++ [c]⟩ := by
  -- an older certificate is for an earlier epoch
  have hlt : ∀ c' ∈ s.certs, c'.epoch < c.epoch := by
    intro c' hc'
    rcases hfrom.eq_or_lt with heq | hlt
    · exact (h.lt (hlate heq) c' hc').trans_eq heq
    · exact (h.le c' hc').trans_lt hlt
  refine ⟨hnonneg, fun hnew => absurd hnew hrole, ?_, ?_, ?_⟩
  · intro c' hc'
    rcases List.mem_append.1 hc' with hc' | hc'
    · exact (hlt c' hc').le.trans hto
    · rw [List.mem_singleton.1 hc']
      exact hto
  · intro hchange
    exact absurd hchange (by simp [hview])
  · rw [List.map_append, List.nodup_append]
    refine ⟨h.nodup, List.nodup_singleton _, ?_⟩
    rintro e he _ hmem rfl
    obtain ⟨c', hc', rfl⟩ := List.mem_map.1 he
    rw [List.map_singleton, List.mem_singleton] at hmem
    exact (hlt c' hc').ne hmem

/-- **One input in time** keeps the ledger. -/
theorem Announcer.Ledger.act {s : Announcer X} {i : Input} (h : s.Ledger) (hi : InTime S E s i) :
    ((announcing S E).act s i).Ledger := by
  obtain ⟨hrange, hlate⟩ := hi
  have hdoes := does_handle (m := s.member) (S := S) (E := E) i
  have hexact := hrange.counts h.nonneg
  have hmoves := moves_of_does hdoes hexact
  have hnonneg := hmoves.epoch_nonneg hexact h.nonneg
  have hview := viewChangeState_of_does hdoes
  have hleads := leads_of_does hdoes
  change Announcer.Ledger ⟨(s.member.handle S E i).member,
    s.certs ++ (s.member.handle S E i).cert.toList⟩
  generalize s.member.handle S E i = o at *
  -- somebody who has broadcast something is a member
  have hmember : s.certs ≠ [] → s.member.role ≠ .newcomer :=
    fun hcerts hrole => hcerts (h.newcomer hrole)
  cases hmoves with
  | stay hi hepoch hlist hrole hentered hcert =>
    rw [hcert, Option.toList_none, List.append_nil]
    refine h.of_none hnonneg (fun hnew => h.newcomer (hrole.symm.trans hnew))
      (fun _ => hepoch.ge) ?_
    intro hcerts hchange
    have hidle : ¬(i = .timeout ∧ s.member.role ≠ .newcomer) := fun hi' => hi'.2 (hi hi'.1)
    rw [hview, hentered, if_neg (by simp), if_neg hidle] at hchange
    exact .inl hchange
  | layDown hi hm hepoch hlist hrole hentered hcert =>
    rw [hcert, Option.toList_none, List.append_nil]
    refine h.of_none hnonneg (fun hnew => absurd (hrole.symm.trans hnew) hm) (fun _ => by omega) ?_
    intro _ _
    exact .inr (by omega)
  | stray hm hrole hentered hcert =>
    rw [hcert, Option.toList_none, List.append_nil]
    exact h.of_none hnonneg (fun _ => h.newcomer hm) (fun hcerts => absurd hm (hmember hcerts))
      (fun hcerts => absurd hm (hmember hcerts))
  | enter hepoch hlist hrole hentered hle hcert =>
    have hto := (hexact.enter hentered).le_viaEpoch
    rw [hentered, if_pos rfl] at hview
    cases hc : o.cert with
    | none =>
      rw [Option.toList_none, List.append_nil]
      refine h.of_none hnonneg (fun hnew => absurd hnew hrole) ?_ ?_
      · intro hcerts
        have hfrom := hle (hmember hcerts)
        omega
      · intro _ hchange
        exact absurd hchange (by simp [hview])
    | some c =>
      obtain ⟨hm, hce, -⟩ := hcert c hc
      refine h.of_some hnonneg hrole hview (hce ▸ hle hm) (by omega) ?_
      intro heq
      by_contra hview'
      exact hlate ⟨by simpa using hview', by omega, hleads (by simp [hc])⟩

/-- **One certificate for an epoch.**  In every run of a node in which the epochs fit into an `int`
and no laid-down message comes too late, the certificates it broadcasts are for different epochs; so
whoever adopts an epoch from this node adopts the same newcomers. -/
theorem epochs_nodup {s : Announcer X} (h : ((announcing S E).only (InTime S E)).Reach s) :
    (s.certs.map NewViewCertificate.epoch).Nodup ∧
      ∀ c ∈ s.certs, ∀ c' ∈ s.certs, c.epoch = c'.epoch → c = c' := by
  have hledger : s.Ledger := by
    refine h.invariant (I := Announcer.Ledger) ?_ ?_
    · rintro s ⟨self, all, exe, rfl⟩
      exact ⟨fun _ => le_rfl, fun _ => rfl, by simp, by simp, List.nodup_nil⟩
    · rintro s i - hs ⟨-, hi⟩
      exact hs.act hi
  refine ⟨hledger.nodup, ?_⟩
  intro c hc c' hc' heq
  exact List.inj_on_of_nodup_map hledger.nodup hc hc' heq

omit [Pb hiPb.LaidDownMsg] [Pb hiPb.NewViewCertificate] in
/-- A node of a group of two becomes the primary of the epochs 1 and 3. -/
theorem epochs_nodup_two :
    let _ : Pb hiPb.LaidDownMsg := Wire.pb hiPb.LaidDownMsg
    let _ : Pb hiPb.NewViewCertificate := Wire.pb hiPb.NewViewCertificate
    let S := naiveMsgMgr (ascii "B")
    ∃ s, ((announcing S mockExecutable).only (InTime S mockExecutable)).Reach s ∧
      s.certs.map NewViewCertificate.epoch = [1, 3] ∧
      (s.certs.map NewViewCertificate.epoch).Nodup := by
  intro _ _ S
  let laidDown (e : ℤ) := (naiveMsgMgr (ascii "A")).prepareMsg
    (LaidDownMsg.toString ⟨ascii "Hi", e, ascii "<mocked-state>"⟩)
  obtain ⟨s, hreach, hcerts⟩ := Sys.exists_reach_of_exec
    (A := (announcing S mockExecutable).only (InTime S mockExecutable))
    (s := ⟨start (ascii "B") [ascii "A", ascii "B"] (), []⟩)
    (P := fun s => s.certs.map NewViewCertificate.epoch = [1, 3]) ⟨_, _, _, rfl⟩
    [.datagram (ascii "A") .iLaidDown (laidDown 1), .timeout, .timeout,
      .datagram (ascii "A") .iLaidDown (laidDown 3), .timeout] (by decide +kernel)
  exact ⟨s, hreach, hcerts, (epochs_nodup hreach).1⟩

omit [Pb hiPb.LaidDownMsg] [Pb hiPb.NewViewCertificate] in
/-- In a group of four, `B` becomes the primary of epoch 1 with the messages of `A`, of `C` and its
own.  The message of `D` comes late: `B` broadcasts a second certificate for the epoch, with a
newcomer. -/
theorem not_epochs_nodup :
    let _ : Pb hiPb.LaidDownMsg := Wire.pb hiPb.LaidDownMsg
    let _ : Pb hiPb.NewViewCertificate := Wire.pb hiPb.NewViewCertificate
    let S := naiveMsgMgr (ascii "B")
    ∃ s, (announcing S mockExecutable).Reach s ∧ ¬(s.certs.map NewViewCertificate.epoch).Nodup ∧
      ∃ c ∈ s.certs, ∃ c' ∈ s.certs, c.epoch = c'.epoch ∧
        getNewcommers S c.sigOfNodesToBeAdded ≠ getNewcommers S c'.sigOfNodesToBeAdded := by
  intro _ _ S
  let laidDown (host : String) := (naiveMsgMgr (ascii host)).prepareMsg
    (LaidDownMsg.toString ⟨ascii "Dear B, I laid down for U.", 1, ascii "<mocked-state>"⟩)
  let addMe := (naiveMsgMgr (ascii "E")).prepareMsg (ascii "Hi, please let me in.")
  exact Sys.exists_reach_of_exec
    (s := ⟨start (ascii "B") [ascii "A", ascii "B", ascii "C", ascii "D"] (), []⟩) ⟨_, _, _, rfl⟩
    [.timeout, .datagram (ascii "A") .iLaidDown (laidDown "A"),
      .datagram (ascii "C") .iLaidDown (laidDown "C"),
      .datagram (ascii "E") .pleaseAddMeNoBoardcast addMe,
      .datagram (ascii "D") .iLaidDown (laidDown "D")] (by decide +kernel)

end Member

end Rbft

end WeakChain
