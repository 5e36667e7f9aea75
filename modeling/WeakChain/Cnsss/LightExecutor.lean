import WeakChain.Exec.BlkExecutor

/-!
# The light executor

`LightExecutorForCnsss` seals a block as soon as transactions arrive: the primary turns the command
`ADD_TXS` into `EXECUTE_BLK` with the whole block, after it has executed the block itself.  Below
the optimization level 2 transactions whose hashes have been seen are washed out first, on every
node.

Two results.  The **replication contract**: a node that executes the command the primary has made of
`ADD_TXS` ends with the databases and the hashes of the primary.  **At most once**: below the
optimization level 2, whatever commands arrive, no transaction hash occurs twice in the blocks
handed to the block executor.
-/

namespace WeakChain

/-- `execute_Blk`: execute a block and commit it. -/
def IBlkExecutable.executeAndCommit {B : Type*} (E : IBlkExecutable B) (s : B) (b : Blk) :
    B × Bool :=
  E.commitBlk s (E.executeBlk s b)

variable [Keccak]

/-- `LightExecutorForCnsss` together with the block executor behind it. -/
structure LightExecutorForCnsss (B : Type*) where
  /-- The state of the block executor. -/
  blk : B
  /-- The washer. -/
  mempool : Mempool
  /-- The number of the next block. -/
  nextBlkNumber : UInt64
  /-- The hash of the last block. -/
  previousHash : Hash256
  /-- From 2 on nothing is washed. -/
  optimizationLevel : ℤ

namespace LightExecutorForCnsss

open ExecutorForCnsss

variable {B : Type*} (E : IBlkExecutable B) (s : LightExecutorForCnsss B)

/-- Wash the transactions below the optimization level 2. -/
def wash (txs : List Tx) : LightExecutorForCnsss B × List Tx :=
  if s.optimizationLevel < 2 then
    let r := s.mempool.washTxs txs
    ({ s with mempool := r.1 }, r.2)
  else (s, txs)

/-- `handle_EXECUTE_BLK`. -/
def handleExecuteBlk [Pb hiPb.Blk] (cmd : Cmd) : ExecOut (LightExecutorForCnsss B) :=
  match Blk.fromString (cmd.drop 1) with
  | none => clearCmdAndComplain s (ascii "Error parsing Blk")
  | some b =>
    let (s, txs) := s.wash b.txs
    match E.executeAndCommit s.blk { b with txs := txs } with
    | (blk, false) => clearCmdAndComplain { s with blk := blk } (ascii "Error committing Blk")
    | (blk, true) => ⟨{ s with blk := blk }, cmd, ascii "OK"⟩

/-- The block to be sealed. -/
def nextBlk (txs : List Tx) : Blk := ⟨s.nextBlkNumber, s.previousHash, txs⟩

/-- `seal_Blk_and_update_cmd`. -/
def sealBlkAndUpdateCmd [Pb hiPb.Blk] (txs : List Tx) : ExecOut (LightExecutorForCnsss B) :=
  let (s, txs) := s.wash txs
  let b := s.nextBlk txs
  match E.executeAndCommit s.blk b with
  | (blk, false) => clearCmdAndComplain { s with blk := blk } (ascii "Error committing Blk")
  | (blk, true) =>
    -- number and hash move on only on the node that sealed the block
    ⟨{ s with blk := blk, nextBlkNumber := s.nextBlkNumber + 1, previousHash := b.hash },
      cmdExecuteBlk :: b.toString, ascii "OK"⟩

/-- `handle_ADD_TXS`. -/
def handleAddTxs [Pb hiPb.Txs] [Pb hiPb.Blk] (cmd : Cmd) : ExecOut (LightExecutorForCnsss B) :=
  match Tx.parseToArray (cmd.drop 1) with
  | .error what => clearCmdAndComplain s (ascii "Error parsing Txs" ++ what)
  | .ok txs =>
    if txs = [] then
      clearCmdAndComplain s (ascii "Error parsing Txs" ++
        ascii "Parsing txs results in a zero-length array.")
    else s.sealBlkAndUpdateCmd E txs

/-- `execute`. -/
def execute [Pb hiPb.Txs] [Pb hiPb.Blk] (cmd : Cmd) : ExecOut (LightExecutorForCnsss B) :=
  switchCmd cmd ⟨s, [], []⟩ (s.handleExecuteBlk E cmd) (s.handleAddTxs E cmd)
    (clearCmdAndComplain s)

/-- The light executor, as the consensus sees it. -/
def executable [Pb hiPb.Txs] [Pb hiPb.Blk] :
    IForConsensusExecutable (LightExecutorForCnsss B) := ⟨fun s cmd => s.execute E cmd⟩

/-! ### Replication -/

variable {E s} {t : LightExecutorForCnsss B}

@[simp] theorem wash_blk (txs : List Tx) : (s.wash txs).1.blk = s.blk := by
  unfold wash
  split_ifs <;> rfl

@[simp] theorem wash_optimizationLevel (txs : List Tx) :
    (s.wash txs).1.optimizationLevel = s.optimizationLevel := by
  unfold wash
  split_ifs <;> rfl

theorem wash_sublist (s : LightExecutorForCnsss B) (txs : List Tx) :
    (s.wash txs).2.Sublist txs := by
  unfold wash
  split_ifs
  · exact s.mempool.washTxs_sublist txs
  · exact List.Sublist.refl txs

/-- A node with the same hashes keeps all that has been washed, and then has the same hashes. -/
theorem wash_wash (hlevel : s.optimizationLevel = t.optimizationLevel)
    (hhs : s.mempool.hs = t.mempool.hs) (txs : List Tx) :
    (t.wash (s.wash txs).2).2 = (s.wash txs).2 ∧
      (s.wash txs).1.mempool.hs = (t.wash (s.wash txs).2).1.mempool.hs := by
  unfold wash
  rw [hlevel]
  split_ifs
  · obtain ⟨h1, h2⟩ := Mempool.washTxs_congr hhs (s.mempool.washTxs txs).2
    rw [Mempool.washTxs_washTxs] at h1 h2
    exact ⟨h2.symm, h1⟩
  · exact ⟨rfl, hhs⟩

variable [Pb hiPb.Blk]

/-- Sealing, if the block can be committed. -/
theorem sealBlkAndUpdateCmd_of_ok (hok : ∀ b e, (E.commitBlk b e).2 = true)
    (s : LightExecutorForCnsss B) (txs : List Tx) :
    let b := (s.wash txs).1.nextBlk (s.wash txs).2
    let out := s.sealBlkAndUpdateCmd E txs
    out.cmd = cmdExecuteBlk :: b.toString ∧
      out.state.blk = (E.executeAndCommit s.blk b).1 ∧
      out.state.mempool = (s.wash txs).1.mempool := by
  have hcommit : ∀ b, E.executeAndCommit (s.wash txs).1.blk b =
      ((E.executeAndCommit s.blk b).1, true) := by
    intro b
    rw [wash_blk]
    exact Prod.ext rfl (hok _ _)
  simp only [sealBlkAndUpdateCmd, hcommit, and_self]

/-- Executing a block that can be parsed, if it can be committed. -/
theorem handleExecuteBlk_of_ok (hok : ∀ b e, (E.commitBlk b e).2 = true)
    (s : LightExecutorForCnsss B) {cmd : Cmd} {b : Blk} (h : Blk.fromString (cmd.drop 1) = some b) :
    let out := s.handleExecuteBlk E cmd
    out.state.blk = (E.executeAndCommit s.blk { b with txs := (s.wash b.txs).2 }).1 ∧
      out.state.mempool = (s.wash b.txs).1.mempool := by
  have hcommit : ∀ b', E.executeAndCommit (s.wash b.txs).1.blk b' =
      ((E.executeAndCommit s.blk b').1, true) := by
    intro b'
    rw [wash_blk]
    exact Prod.ext rfl (hok _ _)
  simp only [handleExecuteBlk, h, hcommit, and_self]

/-- The sealed block, executed elsewhere. -/
theorem seal_replicates (hpb : Pb.ReadsBack hiPb.Blk) (hok : ∀ b e, (E.commitBlk b e).2 = true)
    (hlevel : s.optimizationLevel = t.optimizationLevel) (hblk : s.blk = t.blk)
    (hhs : s.mempool.hs = t.mempool.hs) {txs : List Tx} (htxs : ∀ u ∈ txs, u.FromPkPem) :
    let out := s.sealBlkAndUpdateCmd E txs
    let out' := t.handleExecuteBlk E out.cmd
    out.state.blk = out'.state.blk ∧ out.state.mempool.hs = out'.state.mempool.hs := by
  intro out out'
  obtain ⟨hcmd, hout, hpool⟩ := sealBlkAndUpdateCmd_of_ok hok s txs
  have hread : Blk.fromString (out.cmd.drop 1) =
      some ((s.wash txs).1.nextBlk (s.wash txs).2) := by
    rw [hcmd]
    exact Blk.fromString_toString hpb fun u hu => htxs u ((s.wash_sublist txs).subset hu)
  obtain ⟨hout', hpool'⟩ := handleExecuteBlk_of_ok hok t hread
  -- what the other node washes out is what has been washed out already
  obtain ⟨hwash, hhs'⟩ := wash_wash hlevel hhs txs
  refine ⟨?_, ?_⟩
  · rw [hout, hout', hblk]
    simp only [nextBlk, hwash]
  · rw [hpool, hpool']
    exact hhs'

variable [Pb hiPb.Txs]

omit [Pb hiPb.Blk] in
/-- The transactions that `ADD_TXS` seals; nothing if it complains. -/
def toSeal (arg : Bytes) : Option (List Tx) :=
  (Tx.parseToArray arg).toOption.filter (· ≠ [])

omit [Pb hiPb.Blk] in
theorem fromPkPem_of_toSeal {arg : Bytes} {txs : List Tx} (h : toSeal arg = some txs) :
    ∀ t ∈ txs, t.FromPkPem := by
  unfold toSeal at h
  cases hparse : Tx.parseToArray arg with
  | error what =>
    rw [hparse] at h
    cases h
  | ok txs' =>
    rw [hparse] at h
    obtain rfl := Option.some.inj (Option.filter_eq_some_iff.1 h).1
    exact Tx.fromPkPem_of_mapM hparse

/-- `handle_ADD_TXS` empties the command and changes nothing, or it seals a block. -/
theorem handleAddTxs_cases (s : LightExecutorForCnsss B) (c : UInt8) (arg : Bytes) :
    (toSeal arg = none ∧ (s.handleAddTxs E (c :: arg)).cmd = [] ∧
        (s.handleAddTxs E (c :: arg)).state = s) ∨
      ∃ txs, toSeal arg = some txs ∧
        s.handleAddTxs E (c :: arg) = s.sealBlkAndUpdateCmd E txs := by
  unfold handleAddTxs toSeal
  simp only [List.drop_succ_cons, List.drop_zero]
  cases hparse : Tx.parseToArray arg with
  | error what => exact .inl ⟨rfl, rfl, rfl⟩
  | ok txs =>
    by_cases htxs : txs = []
    · simp [htxs, Except.toOption, clearCmdAndComplain]
    · simp [htxs, Except.toOption]

/-- **Replication of `ADD_TXS` by the light executor.**  Two nodes of the same optimization level
have equal databases `W` and equal hashes, and the writes of the storage succeed.  If the primary
executes a command that starts with the byte of `ADD_TXS` and another node then executes what the
command has become, the two have equal databases and equal hashes again.  If the command has become
empty, the other node is as it was, and so are the databases of the primary. -/
theorem execute_replicates [Pb hiPb.TxOnBlkInfo] [Pb hiPb.ExecBlk] (hpb : Pb.ReadsBack hiPb.Blk)
    {W : Type*} (e : BlkExecutor W) (hw : e.world.WritesSucceed) (s t : LightExecutorForCnsss W)
    (hlevel : s.optimizationLevel = t.optimizationLevel) (hblk : s.blk = t.blk)
    (hhs : s.mempool.hs = t.mempool.hs) (arg : Bytes) :
    let out := s.execute e.blkExecutable (cmdAddTxs :: arg)
    let out' := t.execute e.blkExecutable out.cmd
    out.state.blk = out'.state.blk ∧ out.state.mempool.hs = out'.state.mempool.hs ∧
      (out.cmd = [] → out'.state = t ∧ out.state.blk = s.blk) := by
  intro out out'
  have hout : out = s.handleAddTxs e.blkExecutable (cmdAddTxs :: arg) := switchCmd_cmdAddTxs ..
  have hok : ∀ b x, (e.blkExecutable.commitBlk b x).2 = true := BlkExecutor.commitBlk_ok hw
  rcases handleAddTxs_cases (E := e.blkExecutable) s cmdAddTxs arg with
    ⟨-, hcmd, hstate⟩ | ⟨txs, htxs, hseal⟩
  · rw [← hout] at hcmd hstate
    have hout' : out'.state = t := by
      simp only [out', hcmd]
      rfl
    rw [hstate, hout']
    exact ⟨hblk, hhs, fun _ => ⟨rfl, rfl⟩⟩
  · have hcmd := (sealBlkAndUpdateCmd_of_ok hok s txs).1
    rw [← hseal, ← hout] at hcmd
    have hout' : out' = t.handleExecuteBlk e.blkExecutable out.cmd := by
      simp only [out', hcmd]
      exact switchCmd_cmdExecuteBlk ..
    obtain ⟨h1, h2⟩ := seal_replicates hpb hok hlevel hblk hhs
      (fromPkPem_of_toSeal htxs)
    rw [← hseal, ← hout, ← hout'] at h1 h2
    exact ⟨h1, h2, fun hnil => absurd (hnil.symm.trans hcmd) (List.cons_ne_nil _ _).symm⟩

omit [Keccak] [Pb hiPb.Blk] [Pb hiPb.Txs] in
/-- A transaction that comes twice: the primary seals a block with the first one only. -/
theorem execute_replicates_twice :
    let _ : Keccak := Sponge.keccak
    let _ : HashOrder Bytes32 := .insertion Bytes32
    let _ : Pb hiPb.Acn := Wire.pb hiPb.Acn
    let _ : Pb hiPb.Txs := Wire.pb hiPb.Txs
    let _ : Pb hiPb.Blk := Wire.pb hiPb.Blk
    let _ : Pb hiPb.TxOnBlkInfo := Wire.pb hiPb.TxOnBlkInfo
    let _ : Pb hiPb.ExecBlk := Wire.pb hiPb.ExecBlk
    let e : BlkExecutor InRamWorldStorage :=
      ⟨InRamWorldStorage.storage, BlkExecutor.counter, some fun t => t.nonce ≠ 9⟩
    let s : LightExecutorForCnsss InRamWorldStorage := ⟨⟨∅, ∅⟩, .create ∅ 2, 5, .zero 32, 0⟩
    let t : LightExecutorForCnsss InRamWorldStorage := ⟨⟨∅, ∅⟩, .create ∅ 2, 0, .zero 32, 0⟩
    let tx := Tx.create (makeAddress 1) (makeAddress 2) [] 7 0
    let arg := Tx.serializeFromArray [tx, tx]
    (s.execute e.blkExecutable (cmdAddTxs :: arg)).cmd =
        cmdExecuteBlk :: Blk.toString ⟨5, .zero 32, [tx]⟩ ∧
      (s.execute e.blkExecutable (cmdAddTxs :: arg)).state.blk =
        (t.execute e.blkExecutable
          (s.execute e.blkExecutable (cmdAddTxs :: arg)).cmd).state.blk := by
  intro _ _ _ _ _ _ _ e s t tx arg
  refine ⟨by decide +kernel, ?_⟩
  have hpb : Pb.ReadsBack hiPb.Blk := Wire.readsBack hiPb.Blk
  have hw : e.world.WritesSucceed := InRamWorldStorage.writesSucceed
  exact (execute_replicates hpb e hw s t rfl rfl rfl arg).1

end LightExecutorForCnsss

/-! ### At most once -/

theorem Mempool.Fresh.remember {H : Finset Hash256} {out : List Hash256} {p : Mempool} {h : Hash256}
    (hp : p.Fresh H out) (hh : h ∉ p.hs) : (p.remember h).Fresh H (out ++ [h]) where
  known := hp.known.trans (Finset.subset_insert _ _)
  seen x hx := by
    rcases List.mem_append.1 hx with hx | hx
    · exact Finset.mem_insert_of_mem (hp.seen x hx)
    · exact List.mem_singleton.1 hx ▸ Finset.mem_insert_self _ _
  nodup := by
    rw [List.nodup_append]
    refine ⟨hp.nodup, List.nodup_singleton _, ?_⟩
    rintro x hx y hy rfl
    exact hh (List.mem_singleton.1 hy ▸ hp.seen x hx)
  gone x hx hm := by
    rcases List.mem_append.1 hx with hx | hx
    · exact hp.gone x hx hm
    · obtain ⟨t, ht, hth⟩ := List.mem_map.1 hm
      exact hh (List.mem_singleton.1 hx ▸ hth ▸ p.hash_mem t ht)
  out_new x hx hH := by
    rcases List.mem_append.1 hx with hx | hx
    · exact hp.out_new x hx hH
    · exact hh (List.mem_singleton.1 hx ▸ hp.known hH)
  pool_new := hp.pool_new

/-- Washing hands out what is left. -/
theorem Mempool.Fresh.washTxs {H : Finset Hash256} {out : List Hash256} {p : Mempool}
    (h : p.Fresh H out) (ts : List Tx) :
    (p.washTxs ts).1.Fresh H (out ++ (p.washTxs ts).2.map Tx.hash) := by
  induction ts generalizing p out with
  | nil => simpa [Mempool.washTxs] using h
  | cons t ts ih =>
    rw [Mempool.washTxs]
    split_ifs with ht
    · exact ih h
    · simpa [List.append_assoc] using ih (h.remember ht)

namespace LightExecutorForCnsss

open ExecutorForCnsss

variable {B : Type*} {E : IBlkExecutable B}

/-- The block `b` of the transactions `ts`, washed, has gone through the block executor. -/
structure Handed (E : IBlkExecutable B) (s : LightExecutorForCnsss B) (ts : List Tx) (b : Blk)
    (s' : LightExecutorForCnsss B) : Prop where
  txs : b.txs = (s.wash ts).2
  blk : s'.blk = (E.executeAndCommit s.blk b).1
  mempool : s'.mempool = (s.wash ts).1.mempool
  optimizationLevel : s'.optimizationLevel = s.optimizationLevel

variable [Pb hiPb.Blk]

theorem handed_sealBlkAndUpdateCmd (s : LightExecutorForCnsss B) (txs : List Tx) :
    Handed E s txs ((s.wash txs).1.nextBlk (s.wash txs).2) (s.sealBlkAndUpdateCmd E txs).state := by
  rw [sealBlkAndUpdateCmd]
  dsimp only
  split
  all_goals
    next blk heq =>
      rw [wash_blk] at heq
      exact ⟨rfl, (congrArg Prod.fst heq).symm, rfl, wash_optimizationLevel txs⟩

theorem handed_handleExecuteBlk (s : LightExecutorForCnsss B) {cmd : Cmd} {b : Blk}
    (h : Blk.fromString (cmd.drop 1) = some b) :
    Handed E s b.txs { b with txs := (s.wash b.txs).2 } (s.handleExecuteBlk E cmd).state := by
  simp only [handleExecuteBlk, h]
  split
  all_goals
    next blk heq =>
      rw [wash_blk] at heq
      exact ⟨rfl, (congrArg Prod.fst heq).symm, rfl, wash_optimizationLevel b.txs⟩

variable (E) [Pb hiPb.Txs]

/-- The block that a command hands to `executeBlk`, if any. -/
def handedBy (s : LightExecutorForCnsss B) (cmd : Cmd) : Option Blk :=
  switchCmd cmd none
    ((Blk.fromString (cmd.drop 1)).map fun b => { b with txs := (s.wash b.txs).2 })
    ((toSeal (cmd.drop 1)).map fun txs => (s.wash txs).1.nextBlk (s.wash txs).2)
    fun _ => none

/-- The blocks handed to `executeBlk` while a list of commands is executed. -/
def handed (s : LightExecutorForCnsss B) : List Cmd → List Blk
  | [] => []
  | cmd :: cmds => (s.handedBy cmd).toList ++ handed (s.execute E cmd).state cmds

variable {E}

/-- A command hands nothing over and changes nothing, or it hands over one block. -/
theorem execute_handed (s : LightExecutorForCnsss B) (cmd : Cmd) :
    (s.handedBy cmd = none ∧ (s.execute E cmd).state = s) ∨
      ∃ txs b, s.handedBy cmd = some b ∧ Handed E s txs b (s.execute E cmd).state := by
  cases cmd with
  | nil => exact .inl ⟨rfl, rfl⟩
  | cons c arg =>
    by_cases hblk : c = cmdExecuteBlk
    · subst hblk
      rw [handedBy, execute, switchCmd_cmdExecuteBlk, switchCmd_cmdExecuteBlk]
      cases hparse : Blk.fromString arg with
      | none =>
        exact .inl ⟨by simp [hparse], by simp [handleExecuteBlk, hparse, clearCmdAndComplain]⟩
      | some b => exact .inr ⟨b.txs, _, by simp [hparse], handed_handleExecuteBlk s hparse⟩
    · by_cases htxs : c = cmdAddTxs
      · subst htxs
        rw [handedBy, execute, switchCmd_cmdAddTxs, switchCmd_cmdAddTxs]
        rcases handleAddTxs_cases (E := E) s cmdAddTxs arg with
          ⟨hnone, -, hstate⟩ | ⟨txs, hsome, hseal⟩
        · exact .inl ⟨by simp [hnone], hstate⟩
        · rw [hseal]
          exact .inr ⟨txs, _, by simp [hsome], handed_sealBlkAndUpdateCmd s txs⟩
      · exact .inl (by simp [handedBy, execute, switchCmd, hblk, htxs, clearCmdAndComplain])

theorem fresh_execute {s : LightExecutorForCnsss B} (hlevel : s.optimizationLevel < 2)
    {H : Finset Hash256} {out : List Hash256} (h : s.mempool.Fresh H out) (cmd : Cmd) :
    (s.execute E cmd).state.mempool.Fresh H (out ++ hashes (s.handedBy cmd).toList) ∧
      (s.execute E cmd).state.optimizationLevel < 2 := by
  rcases execute_handed (E := E) s cmd with ⟨hnone, hstate⟩ | ⟨txs, b, hsome, hb⟩
  · rw [hnone, hstate]
    exact ⟨by simpa [hashes] using h, hlevel⟩
  · have hwash := h.washTxs txs
    rw [hsome, hb.mempool, hb.optimizationLevel]
    simp only [Option.toList_some, hashes, List.flatMap_singleton, hb.txs, wash, if_pos hlevel]
    exact ⟨hwash, hlevel⟩

theorem fresh_handed {s : LightExecutorForCnsss B} (hlevel : s.optimizationLevel < 2)
    {H : Finset Hash256} {out : List Hash256} (h : s.mempool.Fresh H out) (cmds : List Cmd) :
    (out ++ hashes (s.handed E cmds)).Nodup ∧
      ∀ x ∈ out ++ hashes (s.handed E cmds), x ∉ H := by
  induction cmds generalizing s out with
  | nil => simpa [handed, hashes] using ⟨h.nodup, h.out_new⟩
  | cons cmd cmds ih =>
    obtain ⟨hfresh, hlevel'⟩ := fresh_execute (E := E) hlevel h cmd
    simpa [handed, hashes, List.append_assoc] using ih hlevel' hfresh

variable (E)

/-- **At most once.**  Below the optimization level 2, over a mempool that starts with the hashes
`H` and any block executor, for every sequence of commands: the hashes of the transactions in the
blocks handed to `executeBlk` are pairwise distinct, and none of them is in `H`. -/
theorem hashes_handed_nodup_light (s : LightExecutorForCnsss B) (hlevel : s.optimizationLevel < 2)
    {H : Finset Hash256} {m : ℤ} (hpool : s.mempool = .create H m) (cmds : List Cmd) :
    (hashes (s.handed E cmds)).Nodup ∧ ∀ h ∈ hashes (s.handed E cmds), h ∉ H := by
  have hfresh : s.mempool.Fresh H [] := hpool ▸ Mempool.fresh_create H m
  simpa using fresh_handed (E := E) hlevel hfresh cmds

omit [Keccak] [Pb hiPb.Blk] [Pb hiPb.Txs] in
/-- The primary seals a block for a transaction that comes twice, gets it again, and gets its own
block back: the transaction is handed over once. -/
theorem hashes_handed_nodup_light_replay :
    let _ : Keccak := Sponge.keccak
    let _ : HashOrder Bytes32 := .insertion Bytes32
    let _ : Pb hiPb.Acn := Wire.pb hiPb.Acn
    let _ : Pb hiPb.Txs := Wire.pb hiPb.Txs
    let _ : Pb hiPb.Blk := Wire.pb hiPb.Blk
    let _ : Pb hiPb.TxOnBlkInfo := Wire.pb hiPb.TxOnBlkInfo
    let _ : Pb hiPb.ExecBlk := Wire.pb hiPb.ExecBlk
    let e := (BlkExecutor.inRam BlkExecutor.counter).blkExecutable
    let s : LightExecutorForCnsss InRamWorldStorage := ⟨⟨∅, ∅⟩, .create ∅ 2, 5, .zero 32, 0⟩
    let tx := Tx.create (makeAddress 1) (makeAddress 2) [] 7 0
    let add := cmdAddTxs :: Tx.serializeFromArray [tx, tx]
    let blk := cmdExecuteBlk :: Blk.toString ⟨5, .zero 32, [tx]⟩
    (s.handed e [add, add, blk]).length = 3 ∧ (hashes (s.handed e [add, add, blk])).Nodup := by
  intro _ _ _ _ _ _ _ e s tx add blk
  exact ⟨by decide +kernel, (hashes_handed_nodup_light e s (by decide) rfl [add, add, blk]).1⟩

end LightExecutorForCnsss

end WeakChain
