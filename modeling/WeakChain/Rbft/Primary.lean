import WeakChain.Cnsss.LightExecutor
import WeakChain.Rbft.Node

/-!
# What the primary sends on

An executor may rewrite a command, and the other nodes are meant to get the command as it has been
rewritten.  The RBFT primary keeps the rewritten command in its history, but it broadcasts the one
it was given: the rewriting happens to a copy, in `finally_execute_it`.

The main result says exactly when what is broadcast is what went into the history.
-/

namespace WeakChain

namespace Rbft

namespace Node

variable {X : Type*} (E : IForConsensusExecutable X) (n : Node X)

/-- What a handler should do with a command: leave the history alone and send nothing, or put one
command into the history and send the same command to all others as an order. -/
def SendsHistory (o : Out X) : Prop :=
  (o.node.commandHistory = n.commandHistory ∧ o.sent = []) ∨
    ∃ c, o.node.commandHistory = n.commandHistory ++ [c] ∧
      o.sent = n.boardcastToOthers .pleaseExecuteThis c

/-- There is nobody else. -/
def Alone : Prop := ∀ node ∈ n.allEndpoints, node = n.listenedEndpoint

variable {n}

theorem boardcastToOthers_of_alone (h : n.Alone) (target : Target) (data : Cmd) :
    n.boardcastToOthers target data = [] := by
  have hnone : (n.allEndpoints.filter fun node => node ≠ n.listenedEndpoint) = [] :=
    List.filter_eq_nil_iff.2 fun node hnode => by simpa using h node hnode
  rw [boardcastToOthers, hnone, List.map_nil]

/-- If there are others, a broadcast tells what was broadcast. -/
theorem boardcastToOthers_inj (h : ¬n.Alone) {target : Target} {c d : Cmd}
    (hcd : n.boardcastToOthers target c = n.boardcastToOthers target d) : c = d := by
  obtain ⟨node, hnode, hne⟩ : ∃ node ∈ n.allEndpoints, node ≠ n.listenedEndpoint := by
    simpa [Alone] using h
  have hsent : (⟨n.listenedEndpoint, node, target, c⟩ : Packet) ∈ n.boardcastToOthers target c :=
    List.mem_map.2 ⟨node, List.mem_filter.2 ⟨hnode, by simpa using hne⟩, rfl⟩
  rw [hcd] at hsent
  exact (data_of_mem_boardcastToOthers hsent).2.2

variable (n)

/-- **The primary sends what went into its history** if and only if a view change is going on, the
command has been received before, the executor leaves the command as it is, or there is nobody to
send it to. -/
theorem sendsHistory_iff (endpoint : Endpoint) (data : Cmd) :
    n.SendsHistory (n.handleExecuteForPrimary1 E endpoint data) ↔
      n.viewChangeState = true ∨ data ∈ n.receivedCommands ∨
        (E.execute n.exe data).cmd = data ∨ n.Alone := by
  by_cases hview : n.viewChangeState = true
  · rw [handleExecuteForPrimary1, if_pos hview]
    exact ⟨fun _ => .inl hview, fun _ => .inl ⟨rfl, rfl⟩⟩
  by_cases hrec : data ∈ n.receivedCommands
  · rw [handleExecuteForPrimary1, if_neg hview, if_pos hrec]
    exact ⟨fun _ => .inr (.inl hrec), fun _ => .inl ⟨rfl, rfl⟩⟩
  rw [handleExecuteForPrimary1, if_neg hview, if_neg hrec]
  constructor
  · rintro (⟨hhist, -⟩ | ⟨c, hhist, hsent⟩)
    · exact absurd hhist (by simp [finallyExecuteIt])
    · -- the command in the history is the rewritten one
      obtain rfl : (E.execute n.exe data).cmd = c := by simpa [finallyExecuteIt] using hhist
      by_cases hothers : n.Alone
      · exact .inr (.inr (.inr hothers))
      · exact .inr (.inr (.inl (boardcastToOthers_inj hothers hsent).symm))
  · rintro (h | h | hcmd | halone)
    · exact absurd h hview
    · exact absurd h hrec
    · refine .inr ⟨data, ?_, rfl⟩
      simp only [finallyExecuteIt, hcmd]
    -- nobody hears the difference
    · refine .inr ⟨(E.execute n.exe data).cmd, rfl, ?_⟩
      rw [boardcastToOthers_of_alone halone, boardcastToOthers_of_alone halone]

/-- With the light executor the history of the primary has the sealed block, and the sub gets the
`ADD_TXS` of the client. -/
theorem not_sendsHistory_light :
    let _ : Keccak := Sponge.keccak
    let _ : HashOrder Bytes32 := .insertion Bytes32
    let _ : Pb hiPb.Acn := Wire.pb hiPb.Acn
    let _ : Pb hiPb.Txs := Wire.pb hiPb.Txs
    let _ : Pb hiPb.Blk := Wire.pb hiPb.Blk
    let _ : Pb hiPb.TxOnBlkInfo := Wire.pb hiPb.TxOnBlkInfo
    let _ : Pb hiPb.ExecBlk := Wire.pb hiPb.ExecBlk
    let E := LightExecutorForCnsss.executable (BlkExecutor.inRam BlkExecutor.counter).blkExecutable
    let n : Node (LightExecutorForCnsss InRamWorldStorage) := {
      listenedEndpoint := ascii "N0"
      allEndpoints := [ascii "N0", ascii "N1"]
      epoch := 0
      viewChangeState := false
      role := .primary
      toBeConfirmedCommands := fun _ => ∅
      toBeCommittedCommands := fun _ => ∅
      receivedCommands := ∅
      commandHistory := []
      exe := ⟨⟨∅, ∅⟩, .create ∅ 2, 0, .zero 32, 2⟩ }
    let tx := Tx.create (makeAddress 1) (makeAddress 2) [] 7 0
    let data := ExecutorForCnsss.cmdAddTxs :: Tx.serializeFromArray [tx]
    let o := n.handleExecuteForPrimary1 E (ascii "client") data
    o.node.commandHistory = [ExecutorForCnsss.cmdExecuteBlk :: Blk.toString ⟨0, .zero 32, [tx]⟩] ∧
      o.sent = [⟨ascii "N0", ascii "N1", .pleaseExecuteThis, data⟩] ∧ ¬n.SendsHistory o := by
  intro _ _ _ _ _ _ _ E n tx data o
  have hhist : o.node.commandHistory =
      [ExecutorForCnsss.cmdExecuteBlk :: Blk.toString ⟨0, .zero 32, [tx]⟩] := by decide +kernel
  have hsent : o.sent = [⟨ascii "N0", ascii "N1", .pleaseExecuteThis, data⟩] := by decide +kernel
  refine ⟨hhist, hsent, ?_⟩
  rintro (⟨h, -⟩ | ⟨c, h, hc⟩)
  · rw [hhist] at h
    cases h
  · rw [hhist] at h
    obtain ⟨rfl, -⟩ := List.cons.inj h
    rw [hsent] at hc
    revert hc
    decide +kernel

end Node

end Rbft

end WeakChain
