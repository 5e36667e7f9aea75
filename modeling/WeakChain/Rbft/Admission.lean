import WeakChain.Rbft.Network

/-!
# One primary for each epoch

The primary of an epoch is found in the list of members, and the list grows when newcomers are
admitted.  A node that has missed the certificate of an admission is not told again.  Once its epoch
is past the admission it disagrees with the others about the primary.

The admissions are a chain (`Chain`): each starts from the list in which the one before has ended.
A node is somewhere on the chain, and as long as nobody is past an admission that it has missed
(`Punctual`), the views of the nodes are in order (`Before`), so that two of them in the same epoch
have the same primary: `primary_eq_of_epoch_eq`.
-/

namespace WeakChain

namespace Rbft

open Member (place)

/-- A view is not after another one, and if they are in the same epoch they have the
same primary. -/
structure Before (v w : List Endpoint × ℤ) : Prop where
  le : v.2 ≤ w.2
  place_eq : v.2 = w.2 → place v.1 v.2 = place w.1 w.2

namespace Before

variable {u v w : List Endpoint × ℤ}

theorem trans (h : Before u v) (h' : Before v w) : Before u w := by
  refine ⟨h.le.trans h'.le, ?_⟩
  intro heq
  have huv : u.2 = v.2 := le_antisymm h.le (heq ▸ h'.le)
  exact (h.place_eq huv).trans (h'.place_eq (huv ▸ heq))

/-- The epoch goes on, with the same members. -/
theorem of_le (members : List Endpoint) {e e' : ℤ} (h : e ≤ e') :
    Before (members, e) (members, e') :=
  ⟨h, fun heq => congrArg (place members) heq⟩

end Before

namespace Admission

variable (a : Admission)

/-- The members afterwards. -/
def after : List Endpoint := a.members ++ a.newcomers

/-- The epoch afterwards. -/
def newEpoch : ℤ := a.epoch + a.epoch / a.members.length * a.newcomers.length

variable {a}

theorem epoch_le_newEpoch (he : 0 ≤ a.epoch) : a.epoch ≤ a.newEpoch := by
  have hprod : 0 ≤ a.epoch / (a.members.length : ℤ) * a.newcomers.length :=
    mul_nonneg (Int.ediv_nonneg he (Int.natCast_nonneg _)) (Int.natCast_nonneg _)
  rw [newEpoch]
  omega

/-- An admission leads to a view that is not before, with the same primary. -/
theorem before (hN : 0 < a.members.length) (he : 0 ≤ a.epoch) (hfit : a.newEpoch < 2 ^ 31) :
    Before (a.members, a.epoch) (a.after, a.newEpoch) :=
  ⟨epoch_le_newEpoch he, fun _ => (Member.place_append hN he hfit).symm⟩

end Admission

/-! ### The chain of admissions -/

section Chain

variable {members : List Endpoint} {A B : List Admission}

/-- The members after some admissions, the latest first. -/
def roster (members : List Endpoint) : List Admission → List Endpoint
  | [] => members
  | a :: _ => a.after

/-- The epoch after some admissions, the latest first. -/
def base : List Admission → ℤ
  | [] => 0
  | a :: _ => a.newEpoch

/-- Each admission starts where the one before has ended. -/
inductive Chain (members : List Endpoint) : List Admission → Prop
  | nil : Chain members []
  | cons {a : Admission} {A : List Admission} (h : Chain members A)
      (hmembers : a.members = roster members A) (hN : 0 < a.members.length)
      (hepoch : base A ≤ a.epoch) (hfit : a.newEpoch < 2 ^ 31) : Chain members (a :: A)

namespace Chain

theorem of_suffix (h : Chain members A) (hB : B <:+ A) : Chain members B := by
  induction h with
  | nil => rw [List.suffix_nil.1 hB]; exact .nil
  | cons h hmembers hN hepoch hfit ih =>
    rcases List.suffix_cons_iff.1 hB with rfl | hB
    · exact .cons h hmembers hN hepoch hfit
    · exact ih hB

theorem base_nonneg (h : Chain members A) : 0 ≤ base A := by
  induction h with
  | nil => exact le_rfl
  | cons _ _ _ hepoch _ ih =>
    exact (ih.trans hepoch).trans (Admission.epoch_le_newEpoch (ih.trans hepoch))

/-- After fewer admissions there is a next one, which is before the view after more. -/
theorem exists_next (h : Chain members A) (hB : B <:+ A) (hne : B ≠ A) :
    ∃ a ∈ A, a.members = roster members B ∧
      Before (roster members B, a.epoch) (roster members A, base A) := by
  induction h with
  | nil => exact absurd (List.suffix_nil.1 hB) hne
  | @cons c C hC hmembers hN hepoch hfit ih =>
    have hstep : Before (roster members C, c.epoch) (roster members (c :: C), base (c :: C)) := by
      rw [← hmembers]
      exact Admission.before hN (hC.base_nonneg.trans hepoch) hfit
    have hB' : B <:+ C := (List.suffix_cons_iff.1 hB).resolve_left hne
    by_cases hBC : B = C
    · subst hBC
      exact ⟨c, List.mem_cons_self, hmembers, hstep⟩
    · obtain ⟨a, ha, hroster, hbefore⟩ := ih hB' hBC
      exact ⟨a, List.mem_cons_of_mem _ ha, hroster,
        (hbefore.trans (Before.of_le _ hepoch)).trans hstep⟩

end Chain

end Chain

/-! ### Nodes on the chain -/

namespace Group

variable {X : Type*} (G : Group X)

/-- No honest member is past an admission that it has missed. -/
def Punctual (s : Network X) : Prop :=
  ∀ j, G.Honest j → (s.node j).role ≠ .newcomer → ∀ a ∈ s.admissions,
    a.members = (s.node j).allEndpoints → (s.node j).epoch ≤ a.epoch

/-- A member is on the chain: it has the members after some of the admissions. -/
structure OnChain (A : List Admission) (m : Member X) (B : List Admission) : Prop where
  suffix : B <:+ A
  list : m.allEndpoints = roster G.members B
  epoch : base B ≤ m.epoch
  pos : 0 < m.allEndpoints.length

/-- The admissions are a chain, and every honest member is on it. -/
structure Aligned (s : Network X) : Prop where
  chain : Chain G.members s.admissions
  member : ∀ j, G.Honest j → (s.node j).role ≠ .newcomer →
    ∃ B, G.OnChain s.admissions (s.node j) B
  punctual : G.Punctual s

variable {G} {s : Network X} {i : Endpoint} {inp : Member.Input}

/-- A member that keeps its list stays where it is. -/
theorem OnChain.mono {A A' B : List Admission} {m m' : Member X} (h : G.OnChain A m B)
    (hA : A <:+ A') (hlist : m'.allEndpoints = m.allEndpoints) (hepoch : m.epoch ≤ m'.epoch) :
    G.OnChain A' m' B :=
  ⟨h.suffix.trans hA, hlist.trans h.list, h.epoch.trans hepoch, hlist ▸ h.pos⟩

/-- A node that has followed an admission is on the chain. -/
theorem exists_onChain_of_mem {A : List Admission} (hA : Chain G.members A) {a : Admission}
    (ha : a ∈ A) {m : Member X} (hlist : m.allEndpoints = a.after) (hepoch : m.epoch = a.newEpoch) :
    ∃ B, G.OnChain A m B := by
  obtain ⟨pre, B, rfl⟩ := List.append_of_mem ha
  refine ⟨a :: B, List.suffix_append _ _, hlist, hepoch.ge, ?_⟩
  cases hA.of_suffix (List.suffix_append pre (a :: B)) with
  | cons _ _ hN _ _ =>
    rw [hlist, Admission.after, List.length_append]
    omega

theorem aligned_init : G.Aligned G.init := by
  refine ⟨.nil, ?_, fun _ _ _ _ ha => absurd ha List.not_mem_nil⟩
  intro j _ hrole
  have hstart : G.init.node j = G.start j := rfl
  have hmem : j ∈ G.members := by
    by_contra hj
    refine hrole ?_
    rw [hstart, start, if_neg hj]
    simp [Member.start, G.notMem_listFor j hj]
  refine ⟨[], List.suffix_rfl, ?_, le_rfl, ?_⟩
  · rw [hstart, start, if_pos hmem]
    rfl
  · rw [hstart, start, if_pos hmem]
    exact List.length_pos_of_mem hmem

theorem admissions_apply_of_none {o : Outcome X} (h : o.cert = none) :
    (G.apply s i inp o).admissions = s.admissions := by
  simp only [apply, h]

theorem admissions_apply_of_some {o : Outcome X} {c : NewViewCertificate} (h : o.cert = some c) :
    (G.apply s i inp o).admissions =
      if (getNewcommers (G.sig i) c.sigOfNodesToBeAdded).isEmpty then s.admissions
      else ⟨(s.node i).allEndpoints, c.epoch, getNewcommers (G.sig i) c.sigOfNodesToBeAdded⟩ ::
        s.admissions := by
  simp only [apply, h]

variable [Pb hiPb.LaidDownMsg] [Pb hiPb.NewViewCertificate]

variable (G) in
/-- No admission is missed. -/
structure InTime (s : Network X) (i : Endpoint) (inp : Member.Input) : Prop where
  /-- The epochs are exact. -/
  exact : G.Exact s i inp
  /-- Newcomers are admitted once to the same members. -/
  once : (G.outcome s i inp).cert ≠ none → ((s.node i).via (G.sig i) inp).2 ≠ [] →
    ∀ a ∈ s.admissions, a.members ≠ (s.node i).allEndpoints
  /-- A certificate with newcomers is accepted by nodes that know the same members as the primary
  that has made it. -/
  known : (G.outcome s i inp).entered = true → (G.outcome s i inp).cert = none →
    (s.node i).role = .newcomer ∨ ((s.node i).via (G.sig i) inp).2 ≠ [] →
      ⟨(s.node i).allEndpoints, ((s.node i).via (G.sig i) inp).1,
        ((s.node i).via (G.sig i) inp).2⟩ ∈ s.admissions
  /-- No member is past an admission that it has missed. -/
  punctual : G.Punctual (G.step s i inp)

omit [Pb hiPb.LaidDownMsg] [Pb hiPb.NewViewCertificate] in
/-- A primary that admits newcomers has followed all admissions so far. -/
theorem Aligned.chain_cons (h : G.Aligned s) (hi : G.Honest i) (hm : (s.node i).role ≠ .newcomer)
    {a : Admission} (hmembers : a.members = (s.node i).allEndpoints)
    (honce : ∀ b ∈ s.admissions, b.members ≠ (s.node i).allEndpoints)
    (hepoch : (s.node i).epoch ≤ a.epoch) (hfit : a.newEpoch < 2 ^ 31) :
    Chain G.members (a :: s.admissions) := by
  obtain ⟨B, hB⟩ := h.member i hi hm
  have hlast : B = s.admissions := by
    by_contra hne
    obtain ⟨b, hb, hroster, -⟩ := h.chain.exists_next hB.suffix hne
    exact honce b hb (hroster.trans hB.list.symm)
  subst hlast
  exact .cons h.chain (hmembers.trans hB.list) (hmembers ▸ hB.pos) (hB.epoch.trans hepoch) hfit

/-- A node that enters a view is on the chain, and the chain grows if it has admitted newcomers. -/
theorem Aligned.chain_enter (h : G.Aligned s) (hi : G.Honest i) (hl : G.InTime s i inp)
    (hepoch : (G.outcome s i inp).member.epoch = (s.node i).viaEpoch (G.sig i) inp)
    (hlist : (G.outcome s i inp).member.allEndpoints =
      (s.node i).allEndpoints ++ ((s.node i).via (G.sig i) inp).2)
    (hentered : (G.outcome s i inp).entered = true)
    (hle : (s.node i).role ≠ .newcomer → (s.node i).epoch ≤ ((s.node i).via (G.sig i) inp).1)
    (hcert : ∀ c, (G.outcome s i inp).cert = some c → (s.node i).role ≠ .newcomer ∧
      c.epoch = ((s.node i).via (G.sig i) inp).1 ∧
      getNewcommers (G.sig i) c.sigOfNodesToBeAdded = ((s.node i).via (G.sig i) inp).2) :
    s.admissions <:+ (G.step s i inp).admissions ∧ Chain G.members (G.step s i inp).admissions ∧
      ∃ B, G.OnChain (G.step s i inp).admissions (G.outcome s i inp).member B := by
  let a : Admission := ⟨(s.node i).allEndpoints, ((s.node i).via (G.sig i) inp).1,
    ((s.node i).via (G.sig i) inp).2⟩
  have hfits := hl.exact (.inr hentered)
  -- without newcomers the list stays as it is
  have halone : ((s.node i).via (G.sig i) inp).2 = [] → (s.node i).role ≠ .newcomer →
      ∃ B, G.OnChain s.admissions (G.outcome s i inp).member B := by
    intro hnone hm
    obtain ⟨B, hB⟩ := h.member i hi hm
    rw [hnone, List.append_nil] at hlist
    refine ⟨B, hB.mono List.suffix_rfl hlist ?_⟩
    rw [hepoch]
    exact (hle hm).trans hfits.le_viaEpoch
  cases hc : (G.outcome s i inp).cert with
  | none =>
    rw [Group.step, admissions_apply_of_none hc]
    refine ⟨List.suffix_rfl, h.chain, ?_⟩
    by_cases hnew : (s.node i).role = .newcomer ∨ ((s.node i).via (G.sig i) inp).2 ≠ []
    · exact exists_onChain_of_mem h.chain (a := a) (hl.known hentered hc hnew) hlist hepoch
    · rw [not_or, not_not] at hnew
      exact halone hnew.2 hnew.1
  | some c =>
    obtain ⟨hm, hcepoch, hcnew⟩ := hcert c hc
    rw [Group.step, admissions_apply_of_some hc, hcepoch, hcnew]
    split_ifs with hempty
    · exact ⟨List.suffix_rfl, h.chain, halone (List.isEmpty_iff.1 hempty) hm⟩
    · have hnew : ((s.node i).via (G.sig i) inp).2 ≠ [] := fun hnil => hempty (by rw [hnil]; rfl)
      have hchain : Chain G.members (a :: s.admissions) :=
        h.chain_cons hi hm rfl (hl.once (by simp [hc]) hnew) (hle hm) hfits.2
      exact ⟨List.suffix_cons _ _, hchain,
        exists_onChain_of_mem hchain (a := a) List.mem_cons_self hlist hepoch⟩

/-- The admissions stay a chain, and the node that an input comes to is on it. -/
theorem Aligned.chain_step (h : G.Aligned s) (hi : G.Honest i) (hl : G.InTime s i inp) :
    s.admissions <:+ (G.step s i inp).admissions ∧ Chain G.members (G.step s i inp).admissions ∧
      (((G.step s i inp).node i).role ≠ .newcomer →
        ∃ B, G.OnChain (G.step s i inp).admissions ((G.step s i inp).node i) B) := by
  have hmoves : (s.node i).Moves (G.sig i) inp (G.outcome s i inp) :=
    Member.moves_of_does (Member.does_handle inp) (.of_fits hl.exact)
  have hnode : (G.step s i inp).node i = (G.outcome s i inp).member := node_apply_self _ _ _ _
  rw [hnode]
  cases hmoves with
  | stay hinp hepoch hlist hrole hentered hcert =>
    rw [Group.step, admissions_apply_of_none hcert]
    refine ⟨List.suffix_rfl, h.chain, ?_⟩
    intro hm
    obtain ⟨B, hB⟩ := h.member i hi (hrole ▸ hm)
    exact ⟨B, hB.mono List.suffix_rfl hlist hepoch.ge⟩
  | layDown hinp hm hepoch hlist hrole hentered hcert =>
    rw [Group.step, admissions_apply_of_none hcert]
    refine ⟨List.suffix_rfl, h.chain, ?_⟩
    intro _
    obtain ⟨B, hB⟩ := h.member i hi hm
    exact ⟨B, hB.mono List.suffix_rfl hlist (by omega)⟩
  | stray hm hrole hentered hcert =>
    rw [Group.step, admissions_apply_of_none hcert]
    exact ⟨List.suffix_rfl, h.chain, fun hm' => absurd hrole hm'⟩
  | enter hepoch hlist hrole hentered hle hcert =>
    obtain ⟨hsuffix, hchain, hon⟩ := h.chain_enter hi hl hepoch hlist hentered hle hcert
    exact ⟨hsuffix, hchain, fun _ => hon⟩

theorem Aligned.step (h : G.Aligned s) (hi : G.Honest i) (hl : G.InTime s i inp) :
    G.Aligned (G.step s i inp) := by
  obtain ⟨hsuffix, hchain, hself⟩ := h.chain_step hi hl
  refine ⟨hchain, ?_, hl.punctual⟩
  intro j hj hm
  by_cases hji : j = i
  · subst hji
    exact hself hm
  · have hnode : (G.step s i inp).node j = s.node j := node_apply_of_ne inp _ hji
    rw [hnode] at hm ⊢
    obtain ⟨B, hB⟩ := h.member j hj hm
    exact ⟨B, hB.mono hsuffix rfl le_rfl⟩

omit [Pb hiPb.LaidDownMsg] [Pb hiPb.NewViewCertificate] in
/-- A member that has followed fewer admissions is not after one that has followed more. -/
theorem Aligned.primary_eq (h : G.Aligned s) {j : Endpoint} (hi : G.Honest i)
    (hmi : (s.node i).role ≠ .newcomer) {A B : List Admission}
    (hA : G.OnChain s.admissions (s.node j) A) (hB : G.OnChain s.admissions (s.node i) B)
    (hBA : B <:+ A) (hepoch : (s.node i).epoch = (s.node j).epoch) :
    (s.node i).primary = (s.node j).primary := by
  change place (s.node i).allEndpoints (s.node i).epoch =
    place (s.node j).allEndpoints (s.node j).epoch
  by_cases hne : B = A
  · rw [hB.list, hA.list, hne, hepoch]
  · obtain ⟨a, ha, hroster, hbefore⟩ := (h.chain.of_suffix hA.suffix).exists_next hBA hne
    have hle : (s.node i).epoch ≤ a.epoch :=
      h.punctual i hi hmi a (hA.suffix.subset ha) (hroster.trans hB.list.symm)
    have hviews := ((Before.of_le (roster G.members B) hle).trans hbefore).trans
      (Before.of_le (roster G.members A) hA.epoch)
    rw [hB.list, hA.list]
    exact hviews.place_eq hepoch

/-- **One primary for each epoch**, in every run in which the epochs are exact and no admission is
missed: two honest members that are in the same epoch have the same primary, even if one of them has
not followed an admission yet. -/
theorem primary_eq_of_epoch_eq (h : (G.sys.only (Network.When G.InTime)).Reach s) {i j : Endpoint}
    (hi : G.Honest i) (hj : G.Honest j) (hmi : (s.node i).role ≠ .newcomer)
    (hmj : (s.node j).role ≠ .newcomer) (hepoch : (s.node i).epoch = (s.node j).epoch) :
    (s.node i).primary = (s.node j).primary := by
  have haligned : G.Aligned s := by
    refine invariant (I := G.Aligned) aligned_init ?_ ?_ h
    · intro s ds hs
      exact ⟨hs.chain, hs.member, hs.punctual⟩
    · intro s i inp _ hs hi hl
      exact hs.step hi hl
  obtain ⟨B, hB⟩ := haligned.member i hi hmi
  obtain ⟨A, hA⟩ := haligned.member j hj hmj
  rcases List.suffix_or_suffix_of_suffix hB.suffix hA.suffix with hBA | hAB
  · exact haligned.primary_eq hi hmi hA hB hBA hepoch
  · exact (haligned.primary_eq hj hmj hB hA hAB hepoch.symm).symm

/-- Before the first admission there is nothing to miss. -/
theorem inTime_of_none (hexact : G.Exact s i inp) (hnone : s.admissions = [])
    (hcert : (G.outcome s i inp).cert = none) (hentered : (G.outcome s i inp).entered = false) :
    G.InTime s i inp := by
  refine ⟨hexact, fun h => absurd hcert h, fun h => by simp [hentered] at h, ?_⟩
  have hadm : (G.step s i inp).admissions = [] := (admissions_apply_of_none hcert).trans hnone
  intro j _ _ a ha
  rw [hadm] at ha
  exact absurd ha List.not_mem_nil

omit [Pb hiPb.LaidDownMsg] [Pb hiPb.NewViewCertificate] in
/-- A group of two, with a newcomer: `A` has missed the certificate with which `B` has admitted `C`,
and is still in the same epoch. -/
theorem primary_eq_of_epoch_eq_two :
    let _ : Pb hiPb.LaidDownMsg := Wire.pb hiPb.LaidDownMsg
    let _ : Pb hiPb.NewViewCertificate := Wire.pb hiPb.NewViewCertificate
    ∃ s, (mockGroup [ascii "A", ascii "B"]).sys.Reach s ∧
      (s.node (ascii "A")).allEndpoints = [ascii "A", ascii "B"] ∧
      (s.node (ascii "B")).allEndpoints = [ascii "A", ascii "B", ascii "C"] ∧
      (s.node (ascii "A")).epoch = 1 ∧ (s.node (ascii "B")).epoch = 1 ∧
      (s.node (ascii "A")).primary = (s.node (ascii "B")).primary := by
  intro _ _
  let G := mockGroup [ascii "A", ascii "B"]
  let addMe : Bytes := (naiveMsgMgr (ascii "C")).prepareMsg (ascii "Hi, please let me in.")
  let laidDown : Bytes := (naiveMsgMgr (ascii "A")).prepareMsg
    (LaidDownMsg.toString ⟨ascii "Dear B, I laid down for U.", 1, ascii "<mocked-state>"⟩)
  let s₁ := G.sys.act G.init (.pleaseAddMe (ascii "C"))
  let s₂ := G.sys.act s₁ (.deliver ⟨ascii "C", ascii "B", .pleaseAddMeNoBoardcast, addMe⟩)
  let s₃ := G.sys.act s₂ (.timeout (ascii "A"))
  let s₄ := G.sys.act s₃ (.timeout (ascii "B"))
  let s := G.sys.act s₄ (.deliver ⟨ascii "A", ascii "B", .iLaidDown, laidDown⟩)
  have h₁ : (G.sys.only (Network.When G.InTime)).Reach s₁ :=
    Sys.Reach.act_only (.init rfl) (by decide +kernel) nofun
  have h₂ : (G.sys.only (Network.When G.InTime)).Reach s₂ := by
    refine Sys.Reach.act_only h₁ (by decide +kernel) ?_
    rintro i inp ⟨⟩
    exact inTime_of_none (by decide +kernel) (by decide +kernel) (by decide +kernel)
      (by decide +kernel)
  have h₃ : (G.sys.only (Network.When G.InTime)).Reach s₃ := by
    refine Sys.Reach.act_only h₂ (by decide +kernel) ?_
    rintro i inp ⟨⟩
    exact inTime_of_none (by decide +kernel) (by decide +kernel) (by decide +kernel)
      (by decide +kernel)
  have h₄ : (G.sys.only (Network.When G.InTime)).Reach s₄ := by
    refine Sys.Reach.act_only h₃ (by decide +kernel) ?_
    rintro i inp ⟨⟩
    exact inTime_of_none (by decide +kernel) (by decide +kernel) (by decide +kernel)
      (by decide +kernel)
  have hadm : s.admissions = [⟨[ascii "A", ascii "B"], 1, [ascii "C"]⟩] := by decide +kernel
  have hA : (s.node (ascii "A")).epoch = 1 := by decide +kernel
  have hB : (s.node (ascii "B")).allEndpoints = [ascii "A", ascii "B", ascii "C"] := by
    decide +kernel
  have hothers : ∀ j, j ≠ ascii "A" → j ≠ ascii "B" → (s.node j).role = .newcomer := by
    intro j hjA hjB
    have hnode : s.node j = G.start j :=
      calc s.node j = s₄.node j := node_apply_of_ne _ _ hjB
        _ = s₃.node j := node_apply_of_ne _ _ hjB
        _ = s₂.node j := node_apply_of_ne _ _ hjA
        _ = s₁.node j := node_apply_of_ne _ _ hjB
        _ = G.start j := rfl
    rw [hnode]
    simp [start, Member.start, G, mockGroup, hjA, hjB]
  have hpunctual : G.Punctual s := by
    intro j _ hm a ha hmembers
    rw [hadm, List.mem_singleton] at ha
    subst ha
    by_cases hjA : j = ascii "A"
    · rw [hjA, hA]
    · by_cases hjB : j = ascii "B"
      · rw [hjB, hB] at hmembers
        exact absurd hmembers (by decide)
      · exact absurd (hothers j hjA hjB) hm
  have h : (G.sys.only (Network.When G.InTime)).Reach s := by
    refine Sys.Reach.act_only h₄ (by decide +kernel) ?_
    rintro i inp ⟨⟩
    refine ⟨by decide +kernel, ?_, ?_, hpunctual⟩
    · have hnone : s₄.admissions = [] := by decide +kernel
      intro _ _ a ha
      rw [hnone] at ha
      exact absurd ha List.not_mem_nil
    · intro _ hcert
      exact absurd hcert (by decide +kernel)
  have hlistA : (s.node (ascii "A")).allEndpoints = [ascii "A", ascii "B"] := by decide +kernel
  have hmA : (s.node (ascii "A")).role ≠ .newcomer := by decide +kernel
  have hmB : (s.node (ascii "B")).role ≠ .newcomer := by decide +kernel
  have hepoch : (s.node (ascii "B")).epoch = 1 := by decide +kernel
  have hhonest : ∀ j, G.Honest j := fun j => Finset.notMem_empty j
  clear_value s
  exact ⟨s, h.of_only, hlistA, hB, hA, hepoch,
    primary_eq_of_epoch_eq h (hhonest _) (hhonest _) hmA hmB (hA.trans hepoch.symm)⟩

omit [Pb hiPb.LaidDownMsg] [Pb hiPb.NewViewCertificate] in
/-- The same, one timeout later: `A` takes itself for the primary, and `B` takes `C`. -/
theorem not_primary_eq_of_epoch_eq :
    let _ : Pb hiPb.LaidDownMsg := Wire.pb hiPb.LaidDownMsg
    let _ : Pb hiPb.NewViewCertificate := Wire.pb hiPb.NewViewCertificate
    let G := mockGroup [ascii "A", ascii "B"]
    ¬∀ s, G.sys.Reach s → ∀ i j, G.Honest i → G.Honest j → (s.node i).role ≠ .newcomer →
      (s.node j).role ≠ .newcomer → (s.node i).epoch = (s.node j).epoch →
        (s.node i).primary = (s.node j).primary := by
  intro _ _ G hall
  let addMe : Bytes := (naiveMsgMgr (ascii "C")).prepareMsg (ascii "Hi, please let me in.")
  let laidDown : Bytes := (naiveMsgMgr (ascii "A")).prepareMsg
    (LaidDownMsg.toString ⟨ascii "Dear B, I laid down for U.", 1, ascii "<mocked-state>"⟩)
  have hrun : ∃ s, G.sys.Reach s ∧ (s.node (ascii "A")).role ≠ .newcomer ∧
      (s.node (ascii "B")).role ≠ .newcomer ∧
      (s.node (ascii "A")).epoch = (s.node (ascii "B")).epoch ∧
      (s.node (ascii "A")).primary ≠ (s.node (ascii "B")).primary := by
    refine Sys.exists_reach_of_exec (s := G.init) rfl
      [.pleaseAddMe (ascii "C"),
        .deliver ⟨ascii "C", ascii "B", .pleaseAddMeNoBoardcast, addMe⟩,
        .timeout (ascii "A"), .timeout (ascii "B"),
        .deliver ⟨ascii "A", ascii "B", .iLaidDown, laidDown⟩,
        .timeout (ascii "A"), .timeout (ascii "B")] ?_
    decide +kernel
  obtain ⟨s, hreach, hmA, hmB, hepoch, hne⟩ := hrun
  have hhonest : ∀ j, G.Honest j := fun j => Finset.notMem_empty j
  exact hne (hall s hreach _ _ (hhonest _) (hhonest _) hmA hmB hepoch)

end Group

end Rbft

end WeakChain
