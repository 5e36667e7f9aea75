import WeakChain.Rbft.Membership

/-!
# The role of a node and its view

The handlers of a node, and with them its role, are changed by the constructor, by
`try_to_be_primary`, `handle_new_primary` and `handle_new_primary_for_newcomer`, while `primary()`
is computed anew from the epoch and the members each time.  The constructor looks at `primary()` to
choose the role; a node that accepts a certificate becomes a sub without looking.  It accepts the
certificate of its own epoch as well, so a primary that gets its own certificate back is a sub from
then on, in a view of which it is the primary.

`roleMatches_of_reach` says that this is the only way in which the two can part.
-/

namespace WeakChain

namespace Rbft

namespace Member

variable {X : Type*} {S : IMsgManageable} {E : IForConsensusExecutable X} {m : Member X}

variable [Pb hiPb.LaidDownMsg] [Pb hiPb.NewViewCertificate]

/-- Unless a view change is going on, the node has the handlers of the primary if and only if it is
the primary of its view. -/
def RoleMatches (m : Member X) : Prop :=
  m.viewChangeState = false → (m.role = .primary ↔ m.primary = m.listenedEndpoint)

instance : Decidable m.RoleMatches :=
  inferInstanceAs (Decidable (m.viewChangeState = false →
    (m.role = .primary ↔ m.primary = m.listenedEndpoint)))

/-- No certificate is accepted for an epoch of which the node itself is the primary. -/
def NotOwn (S : IMsgManageable) (m : Member X) (i : Input) : Prop :=
  ∀ c ∈ m.accepted S i, m.memberAt c.epoch ≠ m.listenedEndpoint

instance (i : Input) : Decidable (m.NotOwn S i) :=
  inferInstanceAs (Decidable (∀ c ∈ m.accepted S i, m.memberAt c.epoch ≠ m.listenedEndpoint))

/-! ### Entering a view -/

/-- A member that accepts a certificate follows. -/
theorem handle_of_accepted {i : Input} {c : NewViewCertificate} (h : m.accepted S i = some c)
    (hrole : m.role ≠ .newcomer) :
    m.handle S E i =
      { member := m.follow c.epoch (getNewcommers S c.sigOfNodesToBeAdded), entered := true } ∧
      (m.via S i).1 = c.epoch := by
  cases i with
  | client src data => cases h
  | timeout => cases h
  | datagram src route data =>
    cases route with
    | iamThePrimary =>
      refine ⟨?_, ?_⟩
      · change m.receive S E src .iamThePrimary data = _
        rw [receive_of_member src .iamThePrimary data hrole]
        dsimp only
        rw [handleNewPrimary_eq src data hrole, h]
      · have hparse := Option.eq_some_of_filter_eq_some h
        simp only [via, hparse]
    | iamThePrimaryForNewcomer =>
      exact absurd (of_decide_eq_true (Option.filter_eq_some_iff.1 h).2).1 hrole
    | iLaidDown => cases h
    | pleaseAddMeNoBoardcast => cases h
    | view t => cases h

/-- A node enters a view as the primary at its own place, or as a sub with a certificate. -/
theorem role_of_entered {i : Input} {o : Outcome X} (h : m.Does S E i o)
    (hentered : o.entered = true)
    (htime : i = .timeout → m.role ≠ .newcomer → m.layDown.epoch = m.epoch + 1) :
    o.member.role = .primary ∧ m.memberAt (m.via S i).1 = m.listenedEndpoint ∨
      o.member.role = .sub ∧ ∃ c, m.accepted S i = some c ∧ (m.via S i).1 = c.epoch := by
  cases h with
  | lead sent hcol hnew hneeded hself hstate =>
    left
    rw [(hcol.via_eq htime).1, lead_eq]
    exact ⟨rfl, hself⟩
  | @follow src data c hrole hparse hnew hepoch hcert =>
    right
    rw [Member.follow, startListeningAsSub_eq]
    refine ⟨rfl, c, ?_, ?_⟩
    · simp only [accepted, hparse, Option.filter_some]
      exact if_pos (decide_eq_true ⟨hrole, hnew, hepoch, hcert⟩)
    · simp only [via, hparse]
  | @join src data d hrole hparse hcert hself =>
    right
    rw [startListeningAsSub_eq]
    refine ⟨rfl, d, ?_, ?_⟩
    · simp only [accepted, hparse, Option.filter_some]
      exact if_pos (decide_eq_true ⟨hrole, hcert⟩)
    · simp only [via, hparse]
  | idle i hrole => cases hentered
  | client src data => cases hentered
  | view src t data hrole => cases hentered
  | addMe src data hrole => cases hentered
  | layDown sent hrole => cases hentered
  | remember hcol hnew => cases hentered
  | stray src hrole hparse hcert => cases hentered

/-- The primary of a view that a node enters is at the place of the epoch for which nodes have laid
down. -/
theorem Moves.primary_of_entered {i : Input} {o : Outcome X} (h : m.Moves S i o)
    (hentered : o.entered = true) (hfits : m.Fits S i) (hN : 0 < m.N) :
    o.member.primary = m.memberAt (m.via S i).1 := by
  cases h with
  | enter hepoch hlist hrole hentered' hle hcert =>
    exact primary_of_admitted hN hfits.1 hfits.2 hlist hepoch
  | stay hi hepoch hlist hrole hstay hcert => exact absurd hentered (by simp [hstay])
  | layDown hi hm hepoch hlist hrole hstay hcert => exact absurd hentered (by simp [hstay])
  | stray hm hrole hstay hcert => exact absurd hentered (by simp [hstay])

/-! ### Runs -/

/-- What a run keeps. -/
structure Standing (m : Member X) : Prop where
  nonneg : m.role ≠ .newcomer → 0 ≤ m.epoch
  nonempty : 0 < m.N
  role : m.role ≠ .newcomer → m.RoleMatches

/-- Entering a view, the node has the right role, unless it accepts a certificate for its own
place. -/
theorem roleMatches_of_entered {i : Input} (hm : 0 < m.N) (hexact : m.Counts S i (m.handle S E i))
    (hentered : (m.handle S E i).entered = true) (hown : m.NotOwn S i) :
    (m.handle S E i).member.RoleMatches := by
  have hdoes := does_handle (m := m) (S := S) (E := E) i
  have hprimary := (moves_of_does hdoes hexact).primary_of_entered hentered
    (hexact.enter hentered) hm
  have hself := (endpoints_of_does hdoes).1
  intro _
  rw [hprimary, hself]
  rcases role_of_entered hdoes hentered hexact.layDown with ⟨hrole, hat⟩ | ⟨hrole, c, hc, hvia⟩
  · exact iff_of_true hrole hat
  · refine iff_of_false (by simp [hrole]) ?_
    rw [hvia]
    exact hown c hc

/-- A member that follows itself is a sub in a view of its own. -/
theorem notOwn_of_roleMatches {i : Input} (hrole : m.role ≠ .newcomer) (hm : 0 < m.N)
    (hexact : m.Counts S i (m.handle S E i)) (h : (m.handle S E i).member.RoleMatches) :
    m.NotOwn S i := by
  intro c hc hat
  obtain ⟨hfollow, hvia⟩ := handle_of_accepted (E := E) hc hrole
  have hentered : (m.handle S E i).entered = true := by rw [hfollow]
  have hdoes := does_handle (m := m) (S := S) (E := E) i
  have hprimary := (moves_of_does hdoes hexact).primary_of_entered hentered
    (hexact.enter hentered) hm
  rw [hvia, hat, ← (endpoints_of_does hdoes).1] at hprimary
  have hview := viewChangeState_of_does hdoes
  rw [hentered, if_pos rfl] at hview
  have hrole' := (h hview).2 hprimary
  rw [hfollow] at hrole'
  dsimp only at hrole'
  rw [follow, startListeningAsSub_eq] at hrole'
  cases hrole'

/-- Within a view nothing changes, and during a view change nothing is claimed. -/
theorem roleMatches_of_stay {i : Input} (hm : m.role ≠ .newcomer → m.RoleMatches)
    (hmoves : m.Moves S i (m.handle S E i)) (hentered : (m.handle S E i).entered = false) :
    (m.handle S E i).member.role ≠ .newcomer → (m.handle S E i).member.RoleMatches := by
  have hdoes := does_handle (m := m) (S := S) (E := E) i
  have hview := viewChangeState_of_does hdoes
  have hself := (endpoints_of_does hdoes).1
  rw [hentered, if_neg (by simp)] at hview
  intro hrole' hchange
  cases hmoves with
  | stay hi hepoch hlist hrole hstay hcert =>
    have hidle : ¬(i = .timeout ∧ m.role ≠ .newcomer) := fun hi' => hi'.2 (hi hi'.1)
    rw [if_neg hidle] at hview
    rw [hrole] at hrole'
    have hprimary : (m.handle S E i).member.primary = m.primary := by
      simp only [Node.primary, Node.N, hepoch, hlist]
    rw [hrole, hprimary, hself]
    exact hm hrole' (hview.symm.trans hchange)
  | layDown hi hmember hepoch hlist hrole hstay hcert =>
    rw [if_pos ⟨hi, hmember⟩] at hview
    cases hview.symm.trans hchange
  | enter hepoch hlist hrole hentered' hle hcert => cases hentered.symm.trans hentered'
  | stray hmember hrole hstay hcert => exact absurd hrole hrole'

/-- **One input**, for which the epochs fit and no certificate for the node's own place
is accepted. -/
theorem Standing.handle (h : m.Standing) {i : Input} (hrange : m.InRange S E i)
    (hown : m.NotOwn S i) : (m.handle S E i).member.Standing := by
  have hdoes := does_handle (m := m) (S := S) (E := E) i
  have hexact := hrange.counts h.nonneg
  have hmoves := moves_of_does hdoes hexact
  refine ⟨hmoves.epoch_nonneg hexact h.nonneg, ?_, ?_⟩
  · exact h.nonempty.trans_le (endpoints_of_does hdoes).2.length_le
  · cases hentered : (m.handle S E i).entered with
    | true => exact fun _ => roleMatches_of_entered h.nonempty hexact hentered hown
    | false => exact roleMatches_of_stay h.role hmoves hentered

omit [Pb hiPb.LaidDownMsg] [Pb hiPb.NewViewCertificate] in
/-- The constructor gives a member the right role. -/
theorem standing_start {self : Endpoint} {all : List Endpoint} {exe : X} (hall : all ≠ []) :
    (start self all exe).Standing := by
  refine ⟨fun _ => le_rfl, List.length_pos_of_ne_nil hall, ?_⟩
  intro hrole _
  have hself : self ∈ all := by
    by_contra hnot
    exact hrole (if_pos hnot)
  have hprimary : (start self all exe).primary = all.getD 0 [] := by
    simp [Node.primary, start]
  have hrole' : (start self all exe).role =
      if all.getD 0 [] = self then .primary else .sub := if_neg (not_not.2 hself)
  rw [hprimary, hrole']
  change _ ↔ all.getD 0 [] = self
  split_ifs with hfirst
  · exact iff_of_true rfl hfirst
  · exact iff_of_false id hfirst

/-- The epochs fit into an `int`, and no certificate is accepted for an epoch of which the node
itself is the primary. -/
def Proper (S : IMsgManageable) (E : IForConsensusExecutable X) (m : Member X) (i : Input) : Prop :=
  m.InRange S E i ∧ m.NotOwn S i

instance (i : Input) : Decidable (m.Proper S E i) := inferInstanceAs (Decidable (_ ∧ _))

/-- **The role of a member matches its view**, in every run of a node in which the epochs fit into
an `int` and the node accepts no certificate for an epoch of which it is the primary itself.  A
certificate for such an epoch, if it is accepted in such a run, does part the two. -/
theorem roleMatches_of_reach {self : Endpoint} {all : List Endpoint} {exe : X} (hall : all ≠ [])
    (h : ((sysFrom S E (start self all exe)).only (Proper S E)).Reach m)
    (hm : m.role ≠ .newcomer) :
    m.RoleMatches ∧
      ∀ i, m.InRange S E i → ((m.handle S E i).member.RoleMatches ↔ m.NotOwn S i) := by
  have hstanding : m.Standing := by
    refine h.invariant (I := Standing) ?_ ?_
    · rintro m rfl
      exact standing_start hall
    · rintro m i - hm ⟨-, hrange, hown⟩
      exact hm.handle hrange hown
  refine ⟨hstanding.role hm, ?_⟩
  intro i hrange
  have hexact := hrange.counts hstanding.nonneg
  refine ⟨notOwn_of_roleMatches hm hstanding.nonempty hexact, ?_⟩
  intro hown
  refine (hstanding.handle hrange hown).role ?_
  exact ((moves_of_does (does_handle i) hexact).mono hexact hm).1

omit [Pb hiPb.LaidDownMsg] [Pb hiPb.NewViewCertificate] in
/-- In a group of two `B` becomes the primary of epoch 1. -/
theorem roleMatches_of_reach_two :
    let _ : Pb hiPb.LaidDownMsg := Wire.pb hiPb.LaidDownMsg
    let _ : Pb hiPb.NewViewCertificate := Wire.pb hiPb.NewViewCertificate
    let S := naiveMsgMgr (ascii "B")
    let start := start (ascii "B") [ascii "A", ascii "B"] ()
    ∃ m, ((sysFrom S mockExecutable start).only (Proper S mockExecutable)).Reach m ∧
      m.role = .primary ∧ m.viewChangeState = false ∧ m.RoleMatches := by
  intro _ _ S start
  let laidDown := (naiveMsgMgr (ascii "A")).prepareMsg
    (LaidDownMsg.toString ⟨ascii "Hi", 1, ascii "<mocked-state>"⟩)
  obtain ⟨m, hreach, hrole, hview⟩ := Sys.exists_reach_of_exec
    (A := (sysFrom S mockExecutable start).only (Proper S mockExecutable))
    (P := fun m => m.role = .primary ∧ m.viewChangeState = false) rfl
    [.datagram (ascii "A") .iLaidDown laidDown, .timeout] (by decide +kernel)
  have hm : m.role ≠ .newcomer := by simp [hrole]
  exact ⟨m, hreach, hrole, hview, (roleMatches_of_reach (by simp) hreach hm).1⟩

omit [Pb hiPb.LaidDownMsg] [Pb hiPb.NewViewCertificate] in
/-- In a group of two `B` becomes the primary of epoch 1, and gets its own certificate back: it is a
sub from then on, and still the primary of its view. -/
theorem not_roleMatches_of_reach :
    let _ : Pb hiPb.LaidDownMsg := Wire.pb hiPb.LaidDownMsg
    let _ : Pb hiPb.NewViewCertificate := Wire.pb hiPb.NewViewCertificate
    let S := naiveMsgMgr (ascii "B")
    let start := start (ascii "B") [ascii "A", ascii "B"] ()
    ∃ m, (sysFrom S mockExecutable start).Reach m ∧ m.viewChangeState = false ∧
      m.role = .sub ∧ m.primary = m.listenedEndpoint ∧ ¬m.RoleMatches := by
  intro _ _ S start
  let laidDown (host : String) := (naiveMsgMgr (ascii host)).prepareMsg
    (LaidDownMsg.toString ⟨ascii "Dear B, I laid down for U.", 1, ascii "<mocked-state>"⟩)
  let cert := NewViewCertificate.toString (.ofPrimary 1 [laidDown "A", laidDown "B"] [])
  exact Sys.exists_reach_of_exec (s := start) rfl
    [.datagram (ascii "A") .iLaidDown (laidDown "A"), .timeout,
      .datagram (ascii "B") .iamThePrimary cert] (by decide +kernel)

end Member

end Rbft

end WeakChain
