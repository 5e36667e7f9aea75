import WeakChain.Rbft.Network

/-!
# What a view change keeps

A new view is meant to start from the history that the members have agreed on: a laid-down message
carries the state of its sender, a certificate has `N - f` of them with the same state, and a node
accepts it only if that is its own state.  But the state is a constant (`cmdsToState`), so nothing
is compared, and a node may enter a view without a command that a sub has executed in an earlier
one.

`cmd_mem_history` says when this does not happen: if the certificates are what they are meant to be
(`Covered`), and nobody still executes commands of a view that others have left for good
(`Prompt`).
-/

namespace WeakChain

namespace Rbft

namespace Group

variable {X : Type*} {G : Group X} {s : Network X} {i : Endpoint} {inp : Member.Input}

/-! ### The books -/

section Books

variable {o : Outcome X}

theorem mem_laidDowns_apply {r : LaidDown} (h : r ∈ (G.apply s i inp o).laidDowns) :
    r ∈ s.laidDowns ∨ inp = .timeout ∧ (s.node i).role ≠ .newcomer ∧
      r = ⟨i, (s.node i).layDown.epoch, (s.node i).commandHistory⟩ := by
  simp only [apply] at h
  split_ifs at h with hlay
  · rcases List.mem_cons.1 h with rfl | h
    · exact .inr ⟨hlay.1, hlay.2, rfl⟩
    · exact .inl h
  · exact .inl h

theorem mem_executions_apply {x : Execution} (h : x ∈ (G.apply s i inp o).executions) :
    x ∈ s.executions ∨ (s.node i).role = .sub ∧ o.executed ≠ [] ∧ x.host = i ∧
      x.epoch = (s.node i).epoch ∧ x.cmd ∈ (G.exe.executeAll (s.node i).exe o.executed).2 := by
  simp only [apply] at h
  split_ifs at h with hsub
  · rcases List.mem_append.1 h with h | h
    · obtain ⟨c, hc, rfl⟩ := List.mem_map.1 h
      refine .inr ⟨hsub, ?_, rfl, rfl, hc⟩
      intro hnil
      rw [hnil] at hc
      exact absurd hc List.not_mem_nil
    · exact .inl h
  · exact .inl h

theorem mem_entries_apply {y : Entry} (h : y ∈ (G.apply s i inp o).entries) :
    y ∈ s.entries ∨ o.entered = true ∧ y = ⟨i, o.member.epoch, o.member.commandHistory⟩ := by
  simp only [apply] at h
  split_ifs at h with hentered
  · rcases List.mem_cons.1 h with rfl | h
    · exact .inr ⟨hentered, rfl⟩
    · exact .inl h
  · exact .inl h

end Books

variable [Pb hiPb.LaidDownMsg] [Pb hiPb.NewViewCertificate]

variable (G)

/-- If the node enters a view: every honest sub that has executed a command in an earlier view has
laid down for the epoch of the certificate, with the history that the node has now; and no command
has been executed in an epoch that is skipped for newcomers. -/
def Covered (s : Network X) (i : Endpoint) (inp : Member.Input) : Prop :=
  (G.outcome s i inp).entered = true → ∀ x ∈ s.executions,
    x.epoch < (s.node i).viaEpoch (G.sig i) inp →
      x.epoch < ((s.node i).via (G.sig i) inp).1 ∧
        ⟨x.host, ((s.node i).via (G.sig i) inp).1, (s.node i).viaHistory G.exe inp⟩ ∈ s.laidDowns

/-- If the node is a sub and executes a command: nobody has entered a later view. -/
def Prompt (s : Network X) (i : Endpoint) (inp : Member.Input) : Prop :=
  (s.node i).role = .sub → (G.outcome s i inp).executed ≠ [] →
    ∀ y ∈ s.entries, y.epoch ≤ (s.node i).epoch

/-- The certificates are what they are meant to be. -/
structure Orderly (s : Network X) (i : Endpoint) (inp : Member.Input) : Prop where
  exact : G.Exact s i inp
  covered : G.Covered s i inp
  prompt : G.Prompt s i inp

instance (s : Network X) (i : Endpoint) (inp : Member.Input) : Decidable (G.Orderly s i inp) :=
  have : Decidable (G.Covered s i inp) := inferInstanceAs (Decidable (_ → ∀ x ∈ _, _ → _ ∧ _))
  have : Decidable (G.Prompt s i inp) := inferInstanceAs (Decidable (_ → _ → ∀ y ∈ _, _))
  decidable_of_iff (G.Exact s i inp ∧ G.Covered s i inp ∧ G.Prompt s i inp)
    ⟨fun h => ⟨h.1, h.2.1, h.2.2⟩, fun h => ⟨h.exact, h.covered, h.prompt⟩⟩

variable {G}

/-- What has been executed in a view is known later on. -/
structure Handed (s : Network X) : Prop where
  executed : ∀ x ∈ s.executions, (s.node x.host).role ≠ .newcomer ∧
    x.cmd ∈ (s.node x.host).commandHistory
  laidDown : ∀ r ∈ s.laidDowns, (s.node r.host).role ≠ .newcomer ∧
    r.epoch ≤ (s.node r.host).epoch
  told : ∀ r ∈ s.laidDowns, ∀ x ∈ s.executions, x.host = r.host → x.epoch < r.epoch →
    x.cmd ∈ r.history
  entered : ∀ y ∈ s.entries, ∀ x ∈ s.executions, x.epoch < y.epoch → x.cmd ∈ y.history

/-- A member that an input comes to remains a member, its epoch does not go back, and it forgets
nothing. -/
theorem member_step (hexact : G.Exact s i inp) (j : Endpoint) (hj : (s.node j).role ≠ .newcomer) :
    ((G.step s i inp).node j).role ≠ .newcomer ∧
      (s.node j).epoch ≤ ((G.step s i inp).node j).epoch ∧
      (s.node j).commandHistory <+: ((G.step s i inp).node j).commandHistory := by
  by_cases hji : j = i
  · subst hji
    have hdoes := Member.does_handle (S := G.sig j) (E := G.exe) (m := s.node j) inp
    obtain ⟨hrole, hepoch⟩ :=
      (Member.moves_of_does hdoes (.of_fits hexact)).mono (.of_fits hexact) hj
    rw [step, node_apply_self]
    exact ⟨hrole, hepoch, _, (Member.history_of_does hdoes hj).symm⟩
  · rw [step, node_apply_of_ne inp _ hji]
    exact ⟨hj, le_rfl, List.prefix_rfl⟩

theorem Handed.executed_step (h : Handed s) (hexact : G.Exact s i inp) :
    ∀ x ∈ (G.step s i inp).executions, ((G.step s i inp).node x.host).role ≠ .newcomer ∧
      x.cmd ∈ ((G.step s i inp).node x.host).commandHistory := by
  intro x hx
  rcases mem_executions_apply hx with hold | ⟨hsub, -, rfl, -, hcmd⟩
  · obtain ⟨hrole, hcmd⟩ := h.executed x hold
    obtain ⟨hrole', -, hhistory⟩ := member_step hexact x.host hrole
    exact ⟨hrole', hhistory.subset hcmd⟩
  · have hm : (s.node x.host).role ≠ .newcomer := by
      rw [hsub]
      exact Role.noConfusion
    have hdoes := Member.does_handle (S := G.sig x.host) (E := G.exe) (m := s.node x.host) inp
    have hgrown := Member.history_of_does hdoes hm
    refine ⟨(member_step hexact x.host hm).1, ?_⟩
    rw [step, node_apply_self, outcome, hgrown]
    exact List.mem_append_right _ hcmd

theorem Handed.laidDown_step (h : Handed s) (hexact : G.Exact s i inp) :
    ∀ r ∈ (G.step s i inp).laidDowns, ((G.step s i inp).node r.host).role ≠ .newcomer ∧
      r.epoch ≤ ((G.step s i inp).node r.host).epoch := by
  intro r hr
  rcases mem_laidDowns_apply hr with hold | ⟨rfl, hm, rfl⟩
  · obtain ⟨hrole, hepoch⟩ := h.laidDown r hold
    obtain ⟨hrole', hepoch', -⟩ := member_step hexact r.host hrole
    exact ⟨hrole', hepoch.trans hepoch'⟩
  · have hdoes := Member.does_handle (S := G.sig i) (E := G.exe) (m := s.node i) .timeout
    refine ⟨(member_step hexact i hm).1, ?_⟩
    rw [step, node_apply_self]
    exact (Member.moves_of_does hdoes (.of_fits hexact)).epoch_timeout (hexact (.inl rfl)) hm

/-- Who lays down tells everything that it has executed in earlier views. -/
theorem Handed.told_step (h : Handed s) :
    ∀ r ∈ (G.step s i inp).laidDowns, ∀ x ∈ (G.step s i inp).executions, x.host = r.host →
      x.epoch < r.epoch → x.cmd ∈ r.history := by
  intro r hr x hx hhost hlt
  have hdoes := Member.does_handle (S := G.sig i) (E := G.exe) (m := s.node i) inp
  rcases mem_laidDowns_apply hr with hold | ⟨htime, -, rfl⟩
  · rcases mem_executions_apply hx with hx | ⟨-, -, hself, hepoch, -⟩
    · exact h.told r hold x hx hhost hlt
    · -- it has laid down before, so the view is not earlier
      have hle := (h.laidDown r hold).2
      rw [← hhost, hself, ← hepoch] at hle
      exact absurd hlt hle.not_gt
  · rcases mem_executions_apply hx with hx | ⟨-, hexec, -⟩
    · have hcmd := (h.executed x hx).2
      rw [hhost] at hcmd
      exact hcmd
    · exact absurd htime (Member.within_of_executed hdoes hexec).1

theorem Handed.entered_step (h : Handed s) (hl : G.Orderly s i inp) :
    ∀ y ∈ (G.step s i inp).entries, ∀ x ∈ (G.step s i inp).executions, x.epoch < y.epoch →
      x.cmd ∈ y.history := by
  intro y hy x hx hlt
  have hdoes := Member.does_handle (S := G.sig i) (E := G.exe) (m := s.node i) inp
  rcases mem_entries_apply hy with hy | ⟨hentered, rfl⟩
  · rcases mem_executions_apply hx with hx | ⟨hsub, hexec, -, hepoch, -⟩
    · exact h.entered y hy x hx hlt
    · have hle := hl.prompt hsub hexec y hy
      rw [← hepoch] at hle
      exact absurd hlt hle.not_gt
  · rcases mem_executions_apply hx with hx | ⟨-, hexec, -⟩
    · have hepoch : (G.outcome s i inp).member.epoch = (s.node i).viaEpoch (G.sig i) inp :=
        (Member.moves_of_does hdoes (.of_fits hl.exact)).epoch_of_entered hentered
      rw [hepoch] at hlt
      obtain ⟨hcert, hlaid⟩ := hl.covered hentered x hx hlt
      have hcmd := h.told _ hlaid x hx rfl hcert
      rw [← Member.history_of_entered hdoes hentered] at hcmd
      exact hcmd
    · exact absurd hentered (by simp [outcome, (Member.within_of_executed hdoes hexec).2])

/-- **View changes keep what has been executed**, in every run in which the epochs are exact, every
honest sub that has executed a command has laid down, with the history that they have, for all that
enter a later view, and no sub executes a command in a view after somebody has entered a later one.
This holds for any number of faulty nodes. -/
theorem cmd_mem_history (h : (G.sys.only (Network.When G.Orderly)).Reach s) {x : Execution}
    (hx : x ∈ s.executions) {y : Entry} (hy : y ∈ s.entries) (hlt : x.epoch < y.epoch) :
    x.cmd ∈ y.history := by
  have hhanded : Handed s := by
    refine invariant (I := Handed) ?_ ?_ ?_ h
    · exact ⟨nofun, nofun, nofun, nofun⟩
    · intro s ds hs
      exact ⟨hs.executed, hs.laidDown, hs.told, hs.entered⟩
    · intro s i inp _ hs _ hl
      exact ⟨hs.executed_step hl.exact, hs.laidDown_step hl.exact, hs.told_step, hs.entered_step hl⟩
  exact hhanded.entered y hy x hx hlt

omit [Pb hiPb.LaidDownMsg] [Pb hiPb.NewViewCertificate] in
/-- A group of two: `B` executes a command, both lay down, and enter the next view. -/
theorem cmd_mem_history_two :
    let _ : Pb hiPb.LaidDownMsg := Wire.pb hiPb.LaidDownMsg
    let _ : Pb hiPb.NewViewCertificate := Wire.pb hiPb.NewViewCertificate
    ∃ s, (mockGroup [ascii "A", ascii "B"]).sys.Reach s ∧
      ∃ x ∈ s.executions, ∃ y ∈ s.entries, x = ⟨ascii "B", ascii "cmd", 0⟩ ∧
        (y.host, y.epoch) = (ascii "A", 1) ∧ x.cmd ∈ y.history := by
  intro _ _
  let G := mockGroup [ascii "A", ascii "B"]
  let laidDown (src : String) : Bytes := (naiveMsgMgr (ascii src)).prepareMsg
    (LaidDownMsg.toString ⟨ascii "Dear B, I laid down for U.", 1, ascii "<mocked-state>"⟩)
  have hrun : ∃ s, (G.sys.only (Network.When G.Orderly)).Reach s ∧
      ∃ x ∈ s.executions, ∃ y ∈ s.entries, x = ⟨ascii "B", ascii "cmd", 0⟩ ∧
        (y.host, y.epoch) = (ascii "A", 1) := by
    refine Sys.exists_reach_of_exec (s := G.init) rfl
      [.client (ascii "A") (ascii "client") (ascii "cmd"),
        .deliver ⟨ascii "A", ascii "B", .view .pleaseExecuteThis, ascii "cmd"⟩,
        .timeout (ascii "A"), .timeout (ascii "B"),
        .deliver ⟨ascii "A", ascii "B", .iLaidDown, laidDown "A"⟩,
        .deliver ⟨ascii "B", ascii "A", .iamThePrimary,
          (NewViewCertificate.ofPrimary 1 [laidDown "B", laidDown "A"] []).toString⟩] ?_
    decide +kernel
  obtain ⟨s, hreach, x, hx, y, hy, rfl, hentry⟩ := hrun
  have hepoch : y.epoch = 1 := congrArg Prod.snd hentry
  refine ⟨s, hreach.of_only, _, hx, y, hy, rfl, hentry, ?_⟩
  exact cmd_mem_history hreach hx hy (by rw [hepoch]; decide)

omit [Pb hiPb.LaidDownMsg] [Pb hiPb.NewViewCertificate] in
/-- A group of three: `C` has executed a command, the commit that `C` has sent to `B` is lost, all
lay down, and `B` becomes the primary without the command. -/
theorem not_cmd_mem_history :
    let _ : Pb hiPb.LaidDownMsg := Wire.pb hiPb.LaidDownMsg
    let _ : Pb hiPb.NewViewCertificate := Wire.pb hiPb.NewViewCertificate
    let G := mockGroup [ascii "A", ascii "B", ascii "C"]
    ¬∀ s, G.sys.Reach s → ∀ x ∈ s.executions, ∀ y ∈ s.entries, x.epoch < y.epoch →
      x.cmd ∈ y.history := by
  intro _ _ G hall
  let packet (src dst : String) (t : Target) : Network.Event :=
    .deliver ⟨ascii src, ascii dst, .view t, ascii "cmd"⟩
  let laidDown (src : String) : Network.Event :=
    .deliver ⟨ascii src, ascii "B", .iLaidDown, (naiveMsgMgr (ascii src)).prepareMsg
      (LaidDownMsg.toString ⟨ascii "Dear B, I laid down for U.", 1, ascii "<mocked-state>"⟩)⟩
  have hrun : ∃ s, G.sys.Reach s ∧
      ∃ x ∈ s.executions, ∃ y ∈ s.entries, x.epoch < y.epoch ∧ x.cmd ∉ y.history := by
    refine Sys.exists_reach_of_exec (s := G.init) rfl
      [.client (ascii "A") (ascii "client") (ascii "cmd"),
        packet "A" "B" .pleaseExecuteThis, packet "A" "C" .pleaseExecuteThis,
        packet "B" "C" .pleaseConfirmThis, packet "C" "B" .pleaseConfirmThis,
        packet "B" "C" .pleaseCommitThis,
        .timeout (ascii "A"), .timeout (ascii "B"), .timeout (ascii "C"),
        laidDown "A", laidDown "C"] ?_
    decide +kernel
  obtain ⟨s, hreach, x, hx, y, hy, hlt, hnot⟩ := hrun
  exact hnot (hall s hreach x hx y hy hlt)

end Group

end Rbft

end WeakChain
