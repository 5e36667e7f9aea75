import WeakChain.Rbft.ViewChange
import Mathlib.Algebra.Order.Ring.Int
import Mathlib.Data.List.GetD

/-!
# Admitting newcomers

When newcomers are admitted, the new primary, the other members and the newcomers each compute the
epoch anew and extend their lists.  The primary of epoch `e` is the member at `e mod N`; with `k`
newcomers it is at the same place, so the epoch becomes `e + (e / N) * k`, which is
`(e / N) * (N + k) + e mod N`.

`tryToBePrimary_agrees` says that all three sides end with the same epoch, the same members, and the
new primary as `primary()`, as long as the epochs fit into an `int`.

`unchanged_of_rejected_iff` is about the newcomers that are not admitted: if the certificate passes,
they have taken over the epoch and the members by the time they find out.
-/

namespace WeakChain

namespace Rbft

namespace Member

variable {X : Type*} {S : IMsgManageable} {m : Member X}

/-! ### The place of the primary -/

/-- The exact epoch, if it fits. -/
theorem epochConsideringNewcomers_of_fits {e : ℤ} {k : ℕ} (he : 0 ≤ e)
    (hfit : e + e / m.N * k < 2 ^ 31) :
    m.epochConsideringNewcomers e k = e + e / m.N * k := by
  have hq : 0 ≤ e / (m.N : ℤ) := Int.ediv_nonneg he (Int.natCast_nonneg _)
  have hprod : 0 ≤ e / (m.N : ℤ) * k := mul_nonneg hq (Int.natCast_nonneg _)
  have hmod : e % 2 ^ 64 = e := Int.emod_eq_of_lt he (by omega)
  -- the number of newcomers fits as well, unless it is multiplied by zero
  have hk : e / (m.N : ℤ) * (int32 k % 2 ^ 64) = e / (m.N : ℤ) * k := by
    rcases hq.eq_or_lt with hzero | hpos
    · rw [← hzero, zero_mul, zero_mul]
    · have hle : (k : ℤ) ≤ e / (m.N : ℤ) * k := le_mul_of_one_le_left (Int.natCast_nonneg _) hpos
      rw [int32_of_lt (Int.natCast_nonneg _) (by omega),
        Int.emod_eq_of_lt (Int.natCast_nonneg _) (by omega)]
  rw [epochConsideringNewcomers, hmod, hk, Int.emod_eq_of_lt (by omega) (by omega)]
  exact int32_of_lt (by omega) hfit

/-- The member at the place of an epoch. -/
def place (members : List Endpoint) (e : ℤ) : Endpoint :=
  members.getD (toSizeT e % members.length) []

/-- The place of the primary does not change. -/
theorem add_mul_mod {n N k : ℕ} (hN : 0 < N) : (n + n / N * k) % (N + k) = n % N := by
  have hn : n + n / N * k = n % N + (N + k) * (n / N) := by
    calc n + n / N * k = n % N + N * (n / N) + n / N * k := by rw [Nat.mod_add_div]
      _ = n % N + (N + k) * (n / N) := by ring
  rw [hn, Nat.add_mul_mod_self_left]
  exact Nat.mod_eq_of_lt ((Nat.mod_lt n hN).trans_le (Nat.le_add_right N k))

/-- The place, as `primary()` computes it. -/
theorem toSizeT_mod {e : ℤ} {N k : ℕ} (hN : 0 < N) (he : 0 ≤ e) (hfit : e + e / N * k < 2 ^ 31) :
    toSizeT (e + e / N * k) % (N + k) = toSizeT e % N := by
  obtain ⟨n, rfl⟩ := Int.eq_ofNat_of_zero_le he
  have hnat : (n : ℤ) + n / N * k = ((n + n / N * k : ℕ) : ℤ) := by
    push_cast
    rfl
  rw [hnat] at hfit ⊢
  have hlt : n + n / N * k < 2 ^ 31 := by exact_mod_cast hfit
  have hsizeT : ∀ k : ℕ, k < 2 ^ 31 → toSizeT (k : ℤ) = k := by
    intro k hk
    rw [toSizeT, Int.emod_eq_of_lt (Int.natCast_nonneg _) (by omega), Int.toNat_natCast]
  rw [hsizeT _ hlt, hsizeT n ((Nat.le_add_right _ _).trans_lt hlt), add_mul_mod hN]

/-- With some newcomers and the epoch for them, the primary is at the place of the old epoch. -/
theorem place_append {members newcomers : List Endpoint} {e : ℤ} (hN : 0 < members.length)
    (he : 0 ≤ e) (hfit : e + e / members.length * newcomers.length < 2 ^ 31) :
    place (members ++ newcomers) (e + e / members.length * newcomers.length) = place members e := by
  rw [place, place, List.length_append, toSizeT_mod hN he hfit,
    List.getD_append _ _ _ _ (Nat.mod_lt _ hN)]

/-- A later epoch is later with newcomers as well. -/
theorem add_mul_strictMono {e e' : ℤ} {N : ℕ} (hN : 0 < N) (k : ℕ) (h : e < e') :
    e + e / N * k < e' + e' / N * k := by
  have hq : e / (N : ℤ) ≤ e' / N := Int.ediv_le_ediv (Int.natCast_pos.2 hN) h.le
  exact add_lt_add_of_lt_of_le h (mul_le_mul_of_nonneg_right hq (Int.natCast_nonneg k))

/-- **The epoch with newcomers keeps the place of the primary.**  For every epoch, every size of the
group and every number of newcomers such that the new epoch fits into an `int`: it is not before the
old one, and the same without newcomers; the place of its primary, as `primary()` computes it, is
that of the old one; and a later epoch becomes a later one. -/
theorem epochConsideringNewcomers_place (m : Member X) (hN : 0 < m.N) {e : ℤ} {k : ℕ} (he : 0 ≤ e)
    (hfit : e + e / m.N * k < 2 ^ 31) :
    e ≤ m.epochConsideringNewcomers e k ∧ (k = 0 → m.epochConsideringNewcomers e k = e) ∧
      toSizeT (m.epochConsideringNewcomers e k) % (m.N + k) = toSizeT e % m.N ∧
      ∀ e', e < e' → e' + e' / m.N * k < 2 ^ 31 →
        m.epochConsideringNewcomers e k < m.epochConsideringNewcomers e' k := by
  rw [epochConsideringNewcomers_of_fits he hfit]
  have hprod : 0 ≤ e / (m.N : ℤ) * k :=
    mul_nonneg (Int.ediv_nonneg he (Int.natCast_nonneg _)) (Int.natCast_nonneg _)
  refine ⟨le_add_of_nonneg_right hprod, ?_, toSizeT_mod hN he hfit, ?_⟩
  · rintro rfl
    rw [Nat.cast_zero, mul_zero, add_zero]
  · intro e' hlater hfit'
    rw [epochConsideringNewcomers_of_fits (he.trans hlater.le) hfit']
    exact add_mul_strictMono hN k hlater

/-- Two newcomers in a group of four, in epoch 6: the new epoch is 8. -/
theorem epochConsideringNewcomers_place_four :
    let m := start (ascii "A") (["A", "B", "C", "D"].map ascii) ()
    let k : ℕ := 2
    let e : ℤ := m.epochConsideringNewcomers 6 k
    e = 8 ∧ 6 ≤ e ∧ (k = 0 → e = 6) ∧ toSizeT e % (m.N + k) = toSizeT 6 % m.N ∧
      ∀ e' : ℤ, 6 < e' → e' + e' / m.N * k < 2 ^ 31 → e < m.epochConsideringNewcomers e' k := by
  intro m k e
  exact ⟨by decide, epochConsideringNewcomers_place m (by decide) (by decide) (by decide)⟩

/-- The primary of a node that has extended its list and computed the epoch. -/
theorem primary_of_admitted {m' : Member X} {e : ℤ} {newcomers : List Endpoint} (hN : 0 < m.N)
    (he : 0 ≤ e) (hfit : e + e / m.N * newcomers.length < 2 ^ 31)
    (hlist : m'.allEndpoints = m.allEndpoints ++ newcomers)
    (hepoch : m'.epoch = e + e / m.N * newcomers.length) : m'.primary = m.memberAt e := by
  change place m'.allEndpoints m'.epoch = place m.allEndpoints e
  rw [hlist, hepoch]
  exact place_append hN he hfit

/-! ### The three sides -/

theorem getNewcommers_congr {S' : IMsgManageable} (h : S'.tearMsgOpen = S.tearMsgOpen)
    (sigs : List Bytes) : getNewcommers S' sigs = getNewcommers S sigs := by
  unfold getNewcommers
  rw [h]

/-- The signatures that are sent on tell the same newcomers. -/
theorem getNewcommers_sigForNewcomers :
    getNewcommers S (m.sigForNewcomers S) = getNewcommers S m.sigOfNodesToBeAdded := by
  unfold sigForNewcomers
  split_ifs with h
  · exact (List.isEmpty_iff.1 h).symm
  · rfl

/-- The primary after `try_to_be_primary`. -/
theorem lead_of_fits {e : ℤ} (he : 0 ≤ e)
    (hfit : e + e / m.N * (getNewcommers S m.sigOfNodesToBeAdded).length < 2 ^ 31) :
    (m.lead S e).allEndpoints = m.allEndpoints ++ getNewcommers S m.sigOfNodesToBeAdded ∧
      (m.lead S e).epoch = e + e / m.N * (getNewcommers S m.sigOfNodesToBeAdded).length := by
  rw [lead_eq]
  refine ⟨rfl, ?_⟩
  dsimp only
  split_ifs with hempty
  · rw [List.isEmpty_iff.1 hempty]
    simp
  · exact epochConsideringNewcomers_of_fits he hfit

variable [Pb hiPb.NewViewCertificate]

/-- What `try_to_be_primary` sends: the certificate, and the certificate with the
command history. -/
theorem data_of_mem_sent_tryToBePrimary {e : ℤ} {state : Bytes} {myList : List Bytes} {d : Datagram}
    (hd : d ∈ (m.tryToBePrimary S e state myList).sent) :
    ∃ cmds, d.data = NewViewCertificate.toString
      { NewViewCertificate.ofPrimary e myList (m.sigForNewcomers S) with cmds := cmds } := by
  unfold tryToBePrimary at hd
  split_ifs at hd with hself hstate
  · exact absurd hd List.not_mem_nil
  · exact absurd hd List.not_mem_nil
  unfold sigForNewcomers
  dsimp only at hd
  split_ifs at hd with hempty
  · rw [if_pos hempty]
    obtain ⟨node, -, rfl⟩ := List.mem_map.1 hd
    exact ⟨[], rfl⟩
  · rw [if_neg hempty]
    rcases List.mem_append.1 hd with hd | hd
    · obtain ⟨node, -, rfl⟩ := List.mem_map.1 hd
      exact ⟨[], rfl⟩
    · obtain ⟨newcomer, -, rfl⟩ := List.mem_map.1 hd
      exact ⟨m.commandHistory, rfl⟩

variable [Pb hiPb.LaidDownMsg] {E : IForConsensusExecutable X}

theorem handleNewPrimary_of_entered {src : Endpoint} {data : Bytes}
    (h : (m.handleNewPrimary S src data).entered = true) :
    ∃ o, NewViewCertificate.fromString data = some o ∧
      (m.handleNewPrimary S src data).member =
        m.follow o.epoch (getNewcommers S o.sigOfNodesToBeAdded) := by
  unfold handleNewPrimary at h ⊢
  split at h
  · cases h
  · next o hparse =>
    refine ⟨o, hparse, ?_⟩
    dsimp only at h ⊢
    split_ifs at h ⊢ with hold hepoch hcert
    rfl

theorem handleNewPrimaryForNewcomer_of_entered {src : Endpoint} {data : Bytes}
    (h : (m.handleNewPrimaryForNewcomer S E src data).entered = true) :
    ∃ d, NewViewCertificate.fromString data = some d ∧
      (m.handleNewPrimaryForNewcomer S E src data).member =
        ((m.enroll d.epoch (getNewcommers S d.sigOfNodesToBeAdded)).catchUp E
          d.cmds).startListeningAsSub := by
  unfold handleNewPrimaryForNewcomer at h ⊢
  split at h
  · cases h
  · next d hparse =>
    refine ⟨d, hparse, ?_⟩
    split_ifs at h ⊢ with hcert
    unfold settle at h ⊢
    split_ifs at h ⊢ with hself
    rfl

/-- Two nodes are in the same view, with the same members and the primary `p`. -/
structure Agree (p : Endpoint) (m m' : Member X) : Prop where
  epoch : m.epoch = m'.epoch
  allEndpoints : m.allEndpoints = m'.allEndpoints
  primary : m.primary = p
  primary' : m'.primary = p

omit [Pb hiPb.NewViewCertificate] [Pb hiPb.LaidDownMsg] in
/-- A node that computes the epoch and extends the list as the new primary does agrees with it. -/
theorem agree_lead {m' r : Member X} {e : ℤ} (hN : 0 < m.N) (he : 0 ≤ e)
    (hfit : e + e / m.N * (getNewcommers S m.sigOfNodesToBeAdded).length < 2 ^ 31)
    (hself : m.memberAt e = m.listenedEndpoint) (hlist : m'.allEndpoints = m.allEndpoints)
    (hepoch : r.epoch = m'.epochConsideringNewcomers e
      (getNewcommers S m.sigOfNodesToBeAdded).length)
    (hextended : r.allEndpoints = m'.allEndpoints ++ getNewcommers S m.sigOfNodesToBeAdded) :
    Agree m.listenedEndpoint (m.lead S e) r := by
  obtain ⟨hlist₁, hepoch₁⟩ := lead_of_fits he hfit
  have hN' : m'.N = m.N := congrArg List.length hlist
  have hepoch₂ : r.epoch = e + e / m.N * (getNewcommers S m.sigOfNodesToBeAdded).length := by
    rw [hepoch, epochConsideringNewcomers_of_fits he (by rw [hN']; exact hfit), hN']
  have hlist₂ : r.allEndpoints = m.allEndpoints ++ getNewcommers S m.sigOfNodesToBeAdded := by
    rw [hextended, hlist]
  refine ⟨hepoch₁.trans hepoch₂.symm, hlist₁.trans hlist₂.symm, ?_, ?_⟩
  · rw [primary_of_admitted hN he hfit hlist₁ hepoch₁, hself]
  · rw [primary_of_admitted hN he hfit hlist₂ hepoch₂, hself]

/-- **The new primary, the other members and the newcomers agree.**  The node `p` becomes the
primary by `try_to_be_primary` for the epoch `e`, a sub `s` accepts its `/IamThePrimary`, and a
newcomer `c` its `/IamThePrimaryForNewcomer`; before, they have the same members, signatures are
checked with the same result, and the epochs fit into an `int`.  Then the sub and the newcomer have
the epoch and the members of the new primary, and `primary()` is the new primary on each of them.
Without newcomers this is said of the primary and the sub. -/
theorem tryToBePrimary_agrees (hpb : Pb.ReadsBack hiPb.NewViewCertificate) {Ss Sc : IMsgManageable}
    (hSs : Ss.tearMsgOpen = S.tearMsgOpen) (hSc : Sc.tearMsgOpen = S.tearMsgOpen)
    {p s c : Member X} (hN : 0 < p.N) (hs : s.allEndpoints = p.allEndpoints)
    (hc : c.allEndpoints = p.allEndpoints) {e : ℤ} {state : Bytes} {myList : List Bytes}
    (he : 0 ≤ e)
    (hfit : e + e / p.N * (getNewcommers S p.sigOfNodesToBeAdded).length < 2 ^ 31)
    (hp : (p.tryToBePrimary S e state myList).entered = true) :
    let o := p.tryToBePrimary S e state myList
    (∀ d ∈ o.sent, d.route = .iamThePrimary →
      (s.handleNewPrimary Ss d.src d.data).entered = true →
        Agree p.listenedEndpoint o.member (s.handleNewPrimary Ss d.src d.data).member) ∧
      ∀ d ∈ o.sent, d.route = .iamThePrimaryForNewcomer →
        (c.handleNewPrimaryForNewcomer Sc E d.src d.data).entered = true →
          Agree p.listenedEndpoint o.member
            (c.handleNewPrimaryForNewcomer Sc E d.src d.data).member := by
  intro o
  rcases tryToBePrimary_cases (S := S) (m := p) e state myList with hnone | ⟨hself, -, sent, hlead⟩
  · rw [hnone] at hp
    cases hp
  have hmember : o.member = p.lead S e := congrArg Outcome.member hlead
  have hprod : 0 ≤ e / (p.N : ℤ) * (getNewcommers S p.sigOfNodesToBeAdded).length :=
    mul_nonneg (Int.ediv_nonneg he (Int.natCast_nonneg _)) (Int.natCast_nonneg _)
  have hint : int32 e = e := int32_of_lt he (by omega)
  -- both certificates are read back, and tell the newcomers
  have hread : ∀ d ∈ o.sent, ∀ o', NewViewCertificate.fromString d.data = some o' →
      o'.epoch = e ∧ o'.sigOfNodesToBeAdded = p.sigForNewcomers S := by
    intro d hd o' hparse
    obtain ⟨cmds, hdata⟩ := data_of_mem_sent_tryToBePrimary hd
    rw [hdata, NewViewCertificate.fromString_toString hpb hint] at hparse
    obtain rfl := Option.some.inj hparse
    exact ⟨rfl, rfl⟩
  rw [hmember]
  refine ⟨?_, ?_⟩
  · rintro d hd - haccept
    obtain ⟨o', hparse, hfollow⟩ := handleNewPrimary_of_entered haccept
    obtain ⟨hepoch, hsigs⟩ := hread d hd o' hparse
    rw [hfollow, hepoch, hsigs, getNewcommers_congr hSs, getNewcommers_sigForNewcomers, follow,
      startListeningAsSub_eq]
    exact agree_lead hN he hfit hself hs rfl rfl
  · rintro d hd - haccept
    obtain ⟨o', hparse, hjoin⟩ := handleNewPrimaryForNewcomer_of_entered haccept
    obtain ⟨hepoch, hsigs⟩ := hread d hd o' hparse
    rw [hjoin, hepoch, hsigs, getNewcommers_congr hSc, getNewcommers_sigForNewcomers,
      startListeningAsSub_eq]
    exact agree_lead hN he hfit hself hc rfl rfl

omit [Pb hiPb.NewViewCertificate] [Pb hiPb.LaidDownMsg] in
/-- A group of two in epoch 3, and a newcomer: afterwards all three are in epoch 4, with three
members. -/
theorem tryToBePrimary_agrees_three :
    let _ : Pb hiPb.LaidDownMsg := Wire.pb hiPb.LaidDownMsg
    let _ : Pb hiPb.NewViewCertificate := Wire.pb hiPb.NewViewCertificate
    let S (ep : String) := naiveMsgMgr (ascii ep)
    let laidDown (ep : String) := (S ep).prepareMsg
      (LaidDownMsg.toString ⟨ascii "Hi", 3, ascii "<mocked-state>"⟩)
    let start (ep : String) := start (ascii ep) [ascii "A", ascii "B"] ()
    let p := ((start "B").handle (S "B") mockExecutable
      (.datagram (ascii "C") .pleaseAddMeNoBoardcast ((S "C").prepareMsg (ascii "Hi")))).member
    let o := p.tryToBePrimary (S "B") 3 (ascii "<mocked-state>") [laidDown "A", laidDown "B"]
    let sub := fun d : Datagram => ((start "A").handleNewPrimary (S "A") d.src d.data).member
    let newcomer := fun d : Datagram =>
      ((start "C").handleNewPrimaryForNewcomer (S "C") mockExecutable d.src d.data).member
    o.member.epoch = 4 ∧
      (∀ d ∈ o.sent, d.route = .iamThePrimary → Agree (ascii "B") o.member (sub d)) ∧
      ∀ d ∈ o.sent, d.route = .iamThePrimaryForNewcomer →
        Agree (ascii "B") o.member (newcomer d) := by
  intro _ _ S laidDown start p o sub newcomer
  have hpb : Pb.ReadsBack hiPb.NewViewCertificate := Wire.readsBack hiPb.NewViewCertificate
  have hfit : (3 : ℤ) + 3 / p.N *
      (getNewcommers (S "B") p.sigOfNodesToBeAdded).length < 2 ^ 31 := by decide +kernel
  have hentered : o.entered = true := by decide +kernel
  have hsub : ∀ d ∈ o.sent, d.route = .iamThePrimary →
      ((start "A").handleNewPrimary (S "A") d.src d.data).entered = true := by decide +kernel
  have hnewcomer : ∀ d ∈ o.sent, d.route = .iamThePrimaryForNewcomer →
      ((start "C").handleNewPrimaryForNewcomer (S "C") mockExecutable d.src d.data).entered =
        true := by decide +kernel
  have hSs : (S "A").tearMsgOpen = (S "B").tearMsgOpen := rfl
  have hSc : (S "C").tearMsgOpen = (S "B").tearMsgOpen := rfl
  obtain ⟨h₁, h₂⟩ := tryToBePrimary_agrees (E := mockExecutable) (p := p) (s := start "A")
    (c := start "C") hpb hSs hSc (by decide +kernel) rfl rfl (by decide) hfit hentered
  refine ⟨by decide +kernel, ?_, ?_⟩
  · intro d hd hroute
    exact h₁ d hd hroute (hsub d hd hroute)
  · intro d hd hroute
    exact h₂ d hd hroute (hnewcomer d hd hroute)

/-! ### Newcomers that are not admitted -/

/-- What a newcomer that is not admitted should keep. -/
structure Unchanged (m m' : Member X) : Prop where
  epoch : m'.epoch = m.epoch
  allEndpoints : m'.allEndpoints = m.allEndpoints
  commandHistory : m'.commandHistory = m.commandHistory
  role : m'.role = m.role
  exe : m'.exe = m.exe

omit [Pb hiPb.LaidDownMsg] in
/-- The epoch of a certificate that has been read is an `int`. -/
theorem int32_epoch_of_fromString {data : Bytes} {d : NewViewCertificate}
    (h : NewViewCertificate.fromString data = some d) : int32 d.epoch = d.epoch := by
  unfold NewViewCertificate.fromString at h
  dsimp only at h
  split_ifs at h
  obtain rfl := Option.some.inj h
  exact Int32.toInt_ofInt.symm.trans (congrArg Int32.toInt (Int32.ofInt_toInt _))

omit [Pb hiPb.NewViewCertificate] [Pb hiPb.LaidDownMsg] in
/-- Without newcomers the epoch is that of the certificate. -/
theorem epochConsideringNewcomers_zero (e : ℤ) : m.epochConsideringNewcomers e 0 = int32 e := by
  have hzero : int32 0 % 2 ^ 64 = 0 := by decide
  have hmod : e % 2 ^ 64 % 2 ^ 64 = e % 2 ^ 64 := Int.emod_emod e (2 ^ 64)
  have hdvd : ((2 ^ 32 : ℕ) : ℤ) ∣ 2 ^ 64 := by decide
  rw [epochConsideringNewcomers, hzero, mul_zero, add_zero, hmod, int32, int32, ← Int.emod_bmod,
    Int.emod_emod_of_dvd e hdvd, Int.emod_bmod]

/-- A certificate that the node accepts as a newcomer makes it a member, or tells nothing new. -/
def Harmless (S : IMsgManageable) (m : Member X) (data : Bytes) : Prop :=
  ∀ d, NewViewCertificate.fromString data = some d →
    m.checkCert S d.newViewCertificate d.epoch true = true →
      m.listenedEndpoint ∈ m.allEndpoints ++ getNewcommers S d.sigOfNodesToBeAdded ∨
        getNewcommers S d.sigOfNodesToBeAdded = [] ∧ d.epoch = m.epoch

omit [Pb hiPb.NewViewCertificate] [Pb hiPb.LaidDownMsg] in
/-- The node that has failed the last assertion of `handle_new_primary_for_newcomer` is as before if
and only if the certificate has told nothing new. -/
theorem unchanged_enroll_iff {d : NewViewCertificate} {newcomers : List Endpoint}
    (hint : int32 d.epoch = d.epoch) :
    Unchanged m (m.enroll d.epoch newcomers) ↔ newcomers = [] ∧ d.epoch = m.epoch := by
  constructor
  · intro h
    obtain rfl : newcomers = [] := List.append_right_eq_self.1 h.allEndpoints
    have hepoch : m.epochConsideringNewcomers d.epoch 0 = m.epoch := h.epoch
    rw [epochConsideringNewcomers_zero, hint] at hepoch
    exact ⟨rfl, hepoch⟩
  · rintro ⟨rfl, hepoch⟩
    refine ⟨?_, List.append_nil _, rfl, rfl, rfl⟩
    change m.epochConsideringNewcomers d.epoch 0 = m.epoch
    rw [epochConsideringNewcomers_zero, hint, hepoch]

/-- **Newcomers that are not admitted.**  A newcomer that does not end as a sub keeps its epoch, its
members, its commands, its role and its executor if and only if the certificate is refused, or it
tells nothing new: the epoch and the members are taken over before the node looks for itself. -/
theorem unchanged_of_rejected_iff (hrole : m.role = .newcomer) (src : Endpoint) (data : Bytes) :
    ((m.handleNewPrimaryForNewcomer S E src data).member.role ≠ .sub →
        Unchanged m (m.handleNewPrimaryForNewcomer S E src data).member) ↔
      Harmless S m data := by
  have hrefl : Unchanged m m := ⟨rfl, rfl, rfl, rfl, rfl⟩
  unfold handleNewPrimaryForNewcomer
  cases hparse : NewViewCertificate.fromString data with
  | none =>
    refine iff_of_true (fun _ => hrefl) ?_
    intro d hd
    rw [hparse] at hd
    cases hd
  | some d =>
    have hharm : Harmless S m data ↔
        (m.checkCert S d.newViewCertificate d.epoch true = true →
          m.listenedEndpoint ∈ m.allEndpoints ++ getNewcommers S d.sigOfNodesToBeAdded ∨
            getNewcommers S d.sigOfNodesToBeAdded = [] ∧ d.epoch = m.epoch) := by
      simp [Harmless, hparse]
    rw [hharm]
    dsimp only
    cases hcert : m.checkCert S d.newViewCertificate d.epoch true with
    | false => exact iff_of_true (fun _ => hrefl) nofun
    | true =>
      rw [if_neg nofun]
      let m' := m.enroll d.epoch (getNewcommers S d.sigOfNodesToBeAdded)
      by_cases hself : m'.listenedEndpoint ∈ m'.allEndpoints
      · refine iff_of_true ?_ (fun _ => .inl hself)
        rw [settle, if_neg (not_not.2 hself), startListeningAsSub_eq]
        exact fun hne => absurd rfl hne
      · rw [settle, if_pos hself]
        have hne : m'.role ≠ .sub := by
          change m.role ≠ .sub
          rw [hrole]
          nofun
        have hiff : Unchanged m m' ↔
            getNewcommers S d.sigOfNodesToBeAdded = [] ∧ d.epoch = m.epoch :=
          unchanged_enroll_iff (int32_epoch_of_fromString hparse)
        constructor
        · intro h _
          exact .inr (hiff.1 (h hne))
        · intro h _
          exact hiff.2 ((h rfl).resolve_left hself)

omit [Pb hiPb.NewViewCertificate] [Pb hiPb.LaidDownMsg] in
/-- `C` wants to join a group of two, and is admitted. -/
theorem unchanged_of_rejected_iff_three :
    let _ : Pb hiPb.LaidDownMsg := Wire.pb hiPb.LaidDownMsg
    let _ : Pb hiPb.NewViewCertificate := Wire.pb hiPb.NewViewCertificate
    let S (ep : String) := naiveMsgMgr (ascii ep)
    let laidDown (ep : String) := (S ep).prepareMsg
      (LaidDownMsg.toString ⟨ascii "Hi", 3, ascii "<mocked-state>"⟩)
    let addMe := (S "C").prepareMsg (ascii "Hi, please let me in.")
    let data := (NewViewCertificate.ofPrimary 3 [laidDown "A", laidDown "B"] [addMe]).toString
    let m := start (ascii "C") [ascii "A", ascii "B"] ()
    let m' := (m.handleNewPrimaryForNewcomer (S "C") mockExecutable (ascii "B") data).member
    m'.role = .sub ∧ ((m'.role ≠ .sub → Unchanged m m') ↔ Harmless (S "C") m data) := by
  intro _ _ S laidDown addMe data m m'
  have hrole : m.role = .newcomer := by decide +kernel
  have hsub : m'.role = .sub := by decide +kernel
  clear_value data
  exact ⟨hsub, unchanged_of_rejected_iff hrole (ascii "B") data⟩

omit [Pb hiPb.NewViewCertificate] [Pb hiPb.LaidDownMsg] in
/-- Another newcomer is admitted instead: `C` is in epoch 4 of a group of three now, and no member.
-/
theorem not_unchanged_of_rejected :
    let _ : Pb hiPb.LaidDownMsg := Wire.pb hiPb.LaidDownMsg
    let _ : Pb hiPb.NewViewCertificate := Wire.pb hiPb.NewViewCertificate
    let S (ep : String) := naiveMsgMgr (ascii ep)
    let laidDown (ep : String) := (S ep).prepareMsg
      (LaidDownMsg.toString ⟨ascii "Hi", 3, ascii "<mocked-state>"⟩)
    let addMe := (S "D").prepareMsg (ascii "Hi, please let me in.")
    let data := (NewViewCertificate.ofPrimary 3 [laidDown "A", laidDown "B"] [addMe]).toString
    let m := start (ascii "C") [ascii "A", ascii "B"] ()
    let m' := (m.handleNewPrimaryForNewcomer (S "C") mockExecutable (ascii "B") data).member
    m.role = .newcomer ∧ m'.role = .newcomer ∧ m'.epoch = 4 ∧
      m'.allEndpoints = [ascii "A", ascii "B", ascii "D"] ∧ ¬(m'.role ≠ .sub → Unchanged m m') := by
  intro _ _ S laidDown addMe data m m'
  have hepoch : m'.epoch = 4 := by decide +kernel
  have hrole : m'.role = .newcomer := by decide +kernel
  refine ⟨by decide +kernel, hrole, hepoch, by decide +kernel, ?_⟩
  intro h
  have hne : m'.role ≠ .sub := by
    rw [hrole]
    nofun
  exact absurd (hepoch.symm.trans (h hne).epoch) (by decide)

end Member

end Rbft

end WeakChain
