import WeakChain.Cnsss.LightExecutor
import WeakChain.Exec.Restore
import WeakChain.Lib.Run

/-!
# The chain that the light executor makes

The light executor numbers the blocks that it seals and links each of them to the hash of the one
before.  Two things come between a sealed block and the chain that is stored.  The hash is taken
before the block is executed, and `executeBlk` drops the transactions that the verifier refuses; and
`handle_EXECUTE_BLK`, on a node that has not sealed the block itself, leaves the number and the hash
where they are.

* `hashChain_of_reach` : the stored blocks are linked, in every run in which the verifier refuses no
  transaction that is sealed.
* `seal_continues` : the next sealed block follows the last committed one, in every run in which the
  blocks that arrive from elsewhere are where the node is already.
-/

namespace WeakChain

/-- `IChainDBGettable` of a storage: what is written is read back, and nothing else changes. -/
structure IChainDBGettable {W : Type*} (S : IWorldStorage W) where
  /-- `getFromChainDB`. -/
  getFromChainDB : W → Bytes → Option Bytes
  get_set : ∀ {w k v}, (S.setInChainDB w k v).2 = true →
    getFromChainDB (S.setInChainDB w k v).1 k = some v
  get_set_of_ne : ∀ {w k v k'}, k' ≠ k →
    getFromChainDB (S.setInChainDB w k v).1 k' = getFromChainDB w k'
  get_applyJournal : ∀ {w j k}, getFromChainDB (S.applyJournalStateDB w j).1 k = getFromChainDB w k

/-- `InRamWorldStorage::getFromChainDB`. -/
def InRamWorldStorage.chainDBGettable [Pb hiPb.Acn] : IChainDBGettable storage where
  getFromChainDB w k := w.chainDB.lookup k
  get_set _ := Finmap.lookup_insert _
  get_set_of_ne h := Finmap.lookup_insert_of_ne _ h
  get_applyJournal := rfl

variable [Keccak] [Pb hiPb.TxOnBlkInfo] [Pb hiPb.ExecBlk] {W : Type*}

namespace BlkExecutor

variable {e : BlkExecutor W} (G : IChainDBGettable e.world)

omit [Pb hiPb.ExecBlk] in
theorem get_commitTxs (number : UInt64) (i : ℕ) (w : W) (tjs : List (Tx × Journal)) (n : ℕ) :
    G.getFromChainDB (e.commitTxs number i w tjs).1 (blkKey n) =
      G.getFromChainDB w (blkKey n) := by
  induction tjs generalizing i w with
  | nil => rfl
  | cons tj tjs ih =>
    obtain ⟨t, j⟩ := tj
    have htx : ∀ w v, G.getFromChainDB (e.world.setInChainDB w (txKey t.hash) v).1 (blkKey n) =
        G.getFromChainDB w (blkKey n) := fun w v => G.get_set_of_ne (txKey_ne_blkKey _ _).symm
    rw [commitTxs]
    split
    · next heq =>
      exact ((congrArg (G.getFromChainDB · (blkKey n)) (congrArg Prod.fst heq)).symm.trans
        G.get_applyJournal).trans (htx _ _)
    · next heq =>
      rw [ih]
      exact ((congrArg (G.getFromChainDB · (blkKey n)) (congrArg Prod.fst heq)).symm.trans
        G.get_applyJournal).trans (htx _ _)

/-- A block that could be committed is stored at its number, and the other blocks are as before. -/
theorem get_commitBlk {w : W} {b : ExecBlk} (h : (e.commitBlk w b).2 = true) (n : ℕ) :
    G.getFromChainDB (e.commitBlk w b).1 (blkKey n) =
      if n = b.number.toNat then some b.toString else G.getFromChainDB w (blkKey n) := by
  have htxs := get_commitTxs G b.number 0 w (b.txs.zip b.stateChanges) n
  unfold commitBlk at h ⊢
  generalize e.commitTxs b.number 0 w (b.txs.zip b.stateChanges) = r at h htxs ⊢
  obtain ⟨w₁, _ | _⟩ := r
  · cases h
  have hset := @G.get_set w₁ (blkKey b.number.toNat) b.toString
  have hset' := @G.get_set_of_ne w₁ (blkKey b.number.toNat) b.toString (blkKey n)
  have hkey : ascii "/blk/" ++ decimal b.number.toNat = blkKey b.number.toNat := rfl
  have hnumber : ascii "/other/blk_number" = blkNumberKey := rfl
  simp only [hkey, hnumber] at h ⊢
  generalize e.world.setInChainDB w₁ (blkKey b.number.toNat) b.toString = r at h hset hset' ⊢
  obtain ⟨w₂, _ | _⟩ := r
  · cases h
  dsimp only
  rw [G.get_set_of_ne (blkKey_ne_blkNumberKey n)]
  split_ifs with hn
  · rw [hn]
    exact hset rfl
  · exact (hset' fun hk => hn (blkKey_injective hk)).trans htxs

end BlkExecutor

namespace LightExecutorForCnsss

open ExecutorForCnsss

variable (e : BlkExecutor W) (s : LightExecutorForCnsss W)

omit [Pb hiPb.TxOnBlkInfo] [Pb hiPb.ExecBlk] in
@[simp] theorem wash_nextBlkNumber (txs : List Tx) :
    (s.wash txs).1.nextBlkNumber = s.nextBlkNumber := by
  unfold wash
  split_ifs <;> rfl

omit [Pb hiPb.TxOnBlkInfo] [Pb hiPb.ExecBlk] in
@[simp] theorem wash_previousHash (txs : List Tx) :
    (s.wash txs).1.previousHash = s.previousHash := by
  unfold wash
  split_ifs <;> rfl

/-- The block that is made of `txs`. -/
def sealed (txs : List Tx) : Blk := s.nextBlk (s.wash txs).2

variable {e s}

omit [Pb hiPb.TxOnBlkInfo] [Pb hiPb.ExecBlk] in
/-- Sealing fails to commit and complains, or number and hash move on. -/
theorem sealBlkAndUpdateCmd_cases [Pb hiPb.Blk] {E : IBlkExecutable W} (txs : List Tx) :
    ((E.executeAndCommit s.blk (s.sealed txs)).2 = false ∧
        (s.sealBlkAndUpdateCmd E txs).reply = ascii "Error committing Blk" ∧
        (s.sealBlkAndUpdateCmd E txs).state.nextBlkNumber = s.nextBlkNumber ∧
        (s.sealBlkAndUpdateCmd E txs).state.previousHash = s.previousHash) ∨
      ((E.executeAndCommit s.blk (s.sealed txs)).2 = true ∧
        (s.sealBlkAndUpdateCmd E txs).reply = ascii "OK" ∧
        (s.sealBlkAndUpdateCmd E txs).state.blk =
          (E.executeAndCommit s.blk (s.sealed txs)).1 ∧
        (s.sealBlkAndUpdateCmd E txs).state.nextBlkNumber = s.nextBlkNumber + 1 ∧
        (s.sealBlkAndUpdateCmd E txs).state.previousHash = (s.sealed txs).hash) := by
  have hsealed : (s.wash txs).1.nextBlk (s.wash txs).2 = s.sealed txs := by
    simp [sealed, nextBlk]
  simp only [sealBlkAndUpdateCmd, hsealed, wash_blk]
  generalize E.executeAndCommit s.blk (s.sealed txs) = r
  obtain ⟨blk, _ | _⟩ := r
  · exact .inl ⟨rfl, rfl, wash_nextBlkNumber s txs, wash_previousHash s txs⟩
  · exact .inr ⟨rfl, rfl, rfl, by simp, rfl⟩

/-! ### Linked blocks -/

section Linked

variable (G : IChainDBGettable e.world)

/-- The block that is stored at a number, if there is one that can be read. -/
def storedBlk (w : W) (n : ℕ) : Option ExecBlk.Parsed :=
  (G.getFromChainDB w (blkKey n)).bind ExecBlk.fromString

/-- Stored blocks with consecutive numbers are linked. -/
def HashChain (w : W) : Prop :=
  ∀ n b b', storedBlk G w n = some b → storedBlk G w (n + 1) = some b' → b'.parentHash = b.hash

/-- The executor stands at the end of a hash chain: at one without blocks, or behind its last
block. -/
structure Linked (s : LightExecutorForCnsss W) : Prop where
  /-- The chain so far. -/
  chain : HashChain G s.blk
  /-- The last block, if there is one, has the hash that the executor remembers. -/
  last : ∀ n b, n + 1 = s.nextBlkNumber.toNat → storedBlk G s.blk n = some b →
    b.hash = s.previousHash
  /-- There are no blocks from the next number on. -/
  fresh : ∀ n, s.nextBlkNumber.toNat ≤ n → G.getFromChainDB s.blk (blkKey n) = none

omit [Pb hiPb.TxOnBlkInfo] in
/-- An executor on a chain without blocks. -/
theorem linked_of_empty (h : ∀ n, G.getFromChainDB s.blk (blkKey n) = none) : Linked G s := by
  have hnone : ∀ n b, storedBlk G s.blk n ≠ some b := by
    intro n b hb
    rw [storedBlk, h n] at hb
    cases hb
  exact ⟨fun n b _ hb _ => absurd hb (hnone n b), fun n b _ hb => absurd hb (hnone n b),
    fun n _ => h n⟩

variable [Pb hiPb.Blk] [Pb hiPb.Txs]

/-- The light executor under `ADD_TXS`, with the argument of the command as the event, as long as
the blocks can be committed. -/
def addTxsSys : Sys (LightExecutorForCnsss W) Bytes where
  init := Linked G
  enabled s arg :=
    (s.execute e.blkExecutable (cmdAddTxs :: arg)).reply ≠ ascii "Error committing Blk"
  act s arg := (s.execute e.blkExecutable (cmdAddTxs :: arg)).state

instance (s : LightExecutorForCnsss W) (arg : Bytes) : Decidable ((addTxsSys G).enabled s arg) :=
  inferInstanceAs (Decidable (_ ≠ _))

omit [Pb hiPb.TxOnBlkInfo] [Pb hiPb.ExecBlk] [Pb hiPb.Blk] in
/-- The verifier refuses no transaction of the block that is sealed, and there is a number for the
next one. -/
def NoneRefused (e : BlkExecutor W) (s : LightExecutorForCnsss W) (arg : Bytes) : Prop :=
  ∀ txs, toSeal arg = some txs →
    e.filterTxs (s.wash txs).2 = (s.wash txs).2 ∧ s.nextBlkNumber.toNat + 1 < 2 ^ 64

omit [Pb hiPb.Txs] in
/-- Sealing a block of which nothing is refused keeps the blocks linked. -/
theorem Linked.seal (hpb : Pb.ReadsBack hiPb.ExecBlk) {txs : List Tx} (h : Linked G s)
    (htxs : ∀ t ∈ txs, t.FromPkPem) (hfilter : e.filterTxs (s.wash txs).2 = (s.wash txs).2)
    (hnumber : s.nextBlkNumber.toNat + 1 < 2 ^ 64)
    (hcommit : (s.sealBlkAndUpdateCmd e.blkExecutable txs).reply ≠ ascii "Error committing Blk") :
    Linked G (s.sealBlkAndUpdateCmd e.blkExecutable txs).state := by
  rcases sealBlkAndUpdateCmd_cases (E := e.blkExecutable) txs with
    ⟨-, hreply, -⟩ | ⟨hok, -, hblk, hnext, hhash⟩
  · exact absurd hreply hcommit
  generalize (s.sealBlkAndUpdateCmd e.blkExecutable txs).state = s' at hblk hnext hhash ⊢
  -- the block that is stored is the block that was hashed
  have hexec : (e.executeBlk s.blk (s.sealed txs)).toBlk = s.sealed txs := by
    simp only [BlkExecutor.executeBlk, sealed, nextBlk, hfilter]
  have hget : ∀ n, G.getFromChainDB s'.blk (blkKey n) =
      if n = s.nextBlkNumber.toNat then some (e.executeBlk s.blk (s.sealed txs)).toString
      else G.getFromChainDB s.blk (blkKey n) := by
    intro n
    rw [hblk]
    exact BlkExecutor.get_commitBlk G hok n
  have hread : storedBlk G s'.blk s.nextBlkNumber.toNat =
      some ⟨s.sealed txs, (e.executeBlk s.blk (s.sealed txs)).stateChanges,
        (e.executeBlk s.blk (s.sealed txs)).txReceipts⟩ := by
    rw [storedBlk, hget, if_pos rfl]
    refine (ExecBlk.fromString_toString hpb ?_).trans ?_
    · rw [hexec]
      exact fun t ht => htxs t ((s.wash_sublist txs).subset ht)
    · rw [hexec]
  have hother : ∀ n, n ≠ s.nextBlkNumber.toNat → storedBlk G s'.blk n = storedBlk G s.blk n := by
    intro n hn
    rw [storedBlk, storedBlk, hget, if_neg hn]
  have hnext' : s'.nextBlkNumber.toNat = s.nextBlkNumber.toNat + 1 := by
    rw [hnext, UInt64.toNat_add]
    exact Nat.mod_eq_of_lt hnumber
  refine ⟨?_, ?_, ?_⟩
  · intro n b b' hb hb'
    by_cases hn : n = s.nextBlkNumber.toNat
    · -- nothing is stored above the new block
      have hnone := h.fresh (n + 1) (by omega)
      rw [hother (n + 1) (by omega), storedBlk, hnone] at hb'
      cases hb'
    · rw [hother n hn] at hb
      by_cases hn' : n + 1 = s.nextBlkNumber.toNat
      · rw [hn', hread] at hb'
        obtain rfl := Option.some.inj hb'
        exact (h.last n b hn' hb).symm
      · rw [hother (n + 1) hn'] at hb'
        exact h.chain n b b' hb hb'
  · intro n b hn hb
    obtain rfl : n = s.nextBlkNumber.toNat := by omega
    rw [hread] at hb
    obtain rfl := Option.some.inj hb
    exact hhash.symm
  · intro n hn
    rw [hget, if_neg (by omega)]
    exact h.fresh n (by omega)

/-- `ADD_TXS` keeps the blocks linked if nothing is refused. -/
theorem Linked.addTxs (hpb : Pb.ReadsBack hiPb.ExecBlk) {arg : Bytes} (h : Linked G s)
    (hnone : NoneRefused e s arg)
    (hcommit : (s.execute e.blkExecutable (cmdAddTxs :: arg)).reply ≠
      ascii "Error committing Blk") :
    Linked G (s.execute e.blkExecutable (cmdAddTxs :: arg)).state := by
  have hexecute : s.execute e.blkExecutable (cmdAddTxs :: arg) =
      s.handleAddTxs e.blkExecutable (cmdAddTxs :: arg) := switchCmd_cmdAddTxs ..
  rw [hexecute] at hcommit ⊢
  rcases handleAddTxs_cases (E := e.blkExecutable) s cmdAddTxs arg with
    ⟨-, -, hstate⟩ | ⟨txs, htxs, hseal⟩
  · rw [hstate]
    exact h
  · rw [hseal] at hcommit ⊢
    obtain ⟨hfilter, hnumber⟩ := hnone txs htxs
    exact h.seal G hpb (fromPkPem_of_toSeal htxs) hfilter hnumber hcommit

/-- **The stored blocks form a hash chain**, in every run of the light executor whose commits
succeed, in which the verifier refuses no transaction of a sealed block and the numbers do not run
out: a block that is stored after another has its hash as the parent hash. -/
theorem hashChain_of_reach (hpb : Pb.ReadsBack hiPb.ExecBlk) {s : LightExecutorForCnsss W}
    (h : ((addTxsSys G).only (NoneRefused e)).Reach s) : HashChain G s.blk := by
  refine Linked.chain (s := s) (h.invariant (fun s hs => hs) ?_)
  intro s arg _ hs hl
  exact hs.addTxs G hpb hl.2 hl.1

omit [Keccak] [Pb hiPb.TxOnBlkInfo] [Pb hiPb.ExecBlk] [Pb hiPb.Blk] [Pb hiPb.Txs] in
/-- The first two blocks of a chain, with transactions that the verifier accepts. -/
theorem hashChain_of_reach_accepted :
    let _ : Keccak := Sponge.keccak
    let _ : HashOrder Bytes32 := .insertion Bytes32
    let _ : Pb hiPb.Acn := Wire.pb hiPb.Acn
    let _ : Pb hiPb.Txs := Wire.pb hiPb.Txs
    let _ : Pb hiPb.Blk := Wire.pb hiPb.Blk
    let _ : Pb hiPb.TxOnBlkInfo := Wire.pb hiPb.TxOnBlkInfo
    let _ : Pb hiPb.ExecBlk := Wire.pb hiPb.ExecBlk
    let e : BlkExecutor InRamWorldStorage :=
      ⟨InRamWorldStorage.storage, BlkExecutor.counter, some fun t => t.nonce ≠ 9⟩
    let G : IChainDBGettable e.world := InRamWorldStorage.chainDBGettable
    let s : LightExecutorForCnsss InRamWorldStorage := ⟨⟨∅, ∅⟩, .create ∅ 2, 0, .zero 32, 2⟩
    let arg (n : UInt64) :=
      Tx.serializeFromArray [Tx.create (makeAddress 1) (makeAddress 2) [] n 0]
    let s₂ := (addTxsSys G).act ((addTxsSys G).act s (arg 7)) (arg 8)
    HashChain G s₂.blk ∧ (storedBlk G s₂.blk 0).isSome ∧ (storedBlk G s₂.blk 1).isSome := by
  intro _ _ _ _ _ _ _ e G s arg s₂
  have hpb : Pb.ReadsBack hiPb.ExecBlk := Wire.readsBack hiPb.ExecBlk
  have hinit : (addTxsSys G).init s := linked_of_empty G fun _ => rfl
  let s₁ := (addTxsSys G).act s (arg 7)
  have htxs : toSeal (arg 7) = some [Tx.create (makeAddress 1) (makeAddress 2) [] 7 0] := by
    decide +kernel
  have htxs' : toSeal (arg 8) = some [Tx.create (makeAddress 1) (makeAddress 2) [] 8 0] := by
    decide +kernel
  have hnone : NoneRefused e s (arg 7) := by
    rintro txs h
    obtain rfl := Option.some.inj (htxs.symm.trans h)
    decide +kernel
  have hnone' : NoneRefused e s₁ (arg 8) := by
    rintro txs h
    obtain rfl := Option.some.inj (htxs'.symm.trans h)
    decide +kernel
  have hreach₁ : ((addTxsSys G).only (NoneRefused e)).Reach s₁ :=
    Sys.Reach.act_only (.init hinit) (by decide +kernel) hnone
  have hreach₂ : ((addTxsSys G).only (NoneRefused e)).Reach s₂ :=
    Sys.Reach.act_only hreach₁ (by decide +kernel) hnone'
  exact ⟨hashChain_of_reach G hpb hreach₂, by decide +kernel, by decide +kernel⟩

omit [Keccak] [Pb hiPb.TxOnBlkInfo] [Pb hiPb.ExecBlk] [Pb hiPb.Blk] [Pb hiPb.Txs] in
/-- A block with a transaction that the verifier refuses, and another block: the second one is
linked to the hash of a block with a transaction, and the block that is stored is empty. -/
theorem not_hashChain_refused :
    let _ : Keccak := Sponge.keccak
    let _ : HashOrder Bytes32 := .insertion Bytes32
    let _ : Pb hiPb.Acn := Wire.pb hiPb.Acn
    let _ : Pb hiPb.Txs := Wire.pb hiPb.Txs
    let _ : Pb hiPb.Blk := Wire.pb hiPb.Blk
    let _ : Pb hiPb.TxOnBlkInfo := Wire.pb hiPb.TxOnBlkInfo
    let _ : Pb hiPb.ExecBlk := Wire.pb hiPb.ExecBlk
    let e : BlkExecutor InRamWorldStorage :=
      ⟨InRamWorldStorage.storage, BlkExecutor.counter, some fun t => t.nonce ≠ 9⟩
    let G : IChainDBGettable e.world := InRamWorldStorage.chainDBGettable
    ¬∀ s, (addTxsSys G).Reach s → HashChain G s.blk := by
  intro _ _ _ _ _ _ _ e G hall
  let s : LightExecutorForCnsss InRamWorldStorage := ⟨⟨∅, ∅⟩, .create ∅ 2, 0, .zero 32, 2⟩
  let tx (n : UInt64) := Tx.create (makeAddress 1) (makeAddress 2) [] n 0
  have hinit : (addTxsSys G).init s := linked_of_empty G fun _ => rfl
  obtain ⟨s', hreach, hbad⟩ := Sys.exists_reach_of_exec (A := addTxsSys G)
    (P := fun s => ((storedBlk G s.blk 0).any fun b =>
      (storedBlk G s.blk 1).any fun b' => decide (b'.parentHash ≠ b.hash)) = true)
    hinit [Tx.serializeFromArray [tx 9], Tx.serializeFromArray [tx 7]] (by decide +kernel)
  obtain ⟨b, hb, hbad⟩ := (Option.any_eq_true _ _).1 hbad
  obtain ⟨b', hb', hbad⟩ := (Option.any_eq_true _ _).1 hbad
  exact of_decide_eq_true hbad (hall s' hreach 0 b b' hb hb')

end Linked

/-! ### Blocks of its own and blocks from elsewhere -/

section Continued

variable [Pb hiPb.Blk] [Pb hiPb.Txs]

omit [Pb hiPb.TxOnBlkInfo] [Pb hiPb.ExecBlk] in
theorem handedBy_cmdAddTxs (s : LightExecutorForCnsss W) (arg : Bytes) :
    s.handedBy (cmdAddTxs :: arg) = (toSeal arg).map s.sealed := by
  have hsealed : (fun txs => (s.wash txs).1.nextBlk (s.wash txs).2) = s.sealed := by
    funext txs
    simp [sealed, nextBlk]
  rw [handedBy, switchCmd_cmdAddTxs, hsealed]
  rfl

variable (e)

/-- The block that a command has committed: the block as it was executed, if the reply is `OK`. -/
def committed (s : LightExecutorForCnsss W) (cmd : Cmd) : Option Blk :=
  if (s.execute e.blkExecutable cmd).reply = ascii "OK" then
    (s.handedBy cmd).map fun b => (e.executeBlk s.blk b).toBlk
  else none

/-- The light executor under any commands, with the last block it has committed. -/
def mixedSys : Sys (LightExecutorForCnsss W × Option Blk) Cmd where
  init p := p.2 = none
  enabled _ _ := True
  act p cmd := ((p.1.execute e.blkExecutable cmd).state, (committed e p.1 cmd).or p.2)

/-- The next block that is sealed follows `b`. -/
def StandsBehind (s : LightExecutorForCnsss W) (b : Blk) : Prop :=
  s.nextBlkNumber = b.number + 1 ∧ s.previousHash = b.hash

/-- What a command must be like for the number and the hash to be right after it.  The verifier
refuses nothing of a block that the node seals; a block from elsewhere is one that the node stands
behind already. -/
structure Continues (p : LightExecutorForCnsss W × Option Blk) (cmd : Cmd) : Prop where
  addTxs : ∀ arg txs, cmd = cmdAddTxs :: arg → toSeal arg = some txs →
    e.filterTxs (p.1.wash txs).2 = (p.1.wash txs).2
  executeBlk : ∀ arg b, cmd = cmdExecuteBlk :: arg → committed e p.1 cmd = some b →
    p.1.StandsBehind b

variable {e}

omit [Pb hiPb.Txs] in
/-- Executing a block leaves the number and the hash as they were. -/
theorem handleExecuteBlk_frame (s : LightExecutorForCnsss W) (cmd : Cmd) :
    (s.handleExecuteBlk e.blkExecutable cmd).state.nextBlkNumber = s.nextBlkNumber ∧
      (s.handleExecuteBlk e.blkExecutable cmd).state.previousHash = s.previousHash := by
  rw [handleExecuteBlk]
  cases Blk.fromString (cmd.drop 1) with
  | none => exact ⟨rfl, rfl⟩
  | some b =>
    dsimp only
    split
    · exact ⟨wash_nextBlkNumber s b.txs, wash_previousHash s b.txs⟩
    · exact ⟨wash_nextBlkNumber s b.txs, wash_previousHash s b.txs⟩

/-- A command of another kind does nothing. -/
theorem execute_of_ne (s : LightExecutorForCnsss W) {c : UInt8} (hblk : c ≠ cmdExecuteBlk)
    (htxs : c ≠ cmdAddTxs) (arg : Bytes) :
    (s.execute e.blkExecutable (c :: arg)).state = s ∧ committed e s (c :: arg) = none := by
  have hto : s.handedBy (c :: arg) = none := by
    simp only [handedBy, switchCmd, if_neg hblk, if_neg htxs]
  refine ⟨?_, ?_⟩
  · simp only [execute, switchCmd, if_neg hblk, if_neg htxs]
    rfl
  · rw [committed, hto]
    exact ite_self _

/-- What a command does to the number and the hash: nothing, except that a block that is sealed and
committed moves them on. -/
theorem execute_cases (s : LightExecutorForCnsss W) (cmd : Cmd) :
    ((committed e s cmd = none ∨ ∃ arg, cmd = cmdExecuteBlk :: arg) ∧
        (s.execute e.blkExecutable cmd).state.nextBlkNumber = s.nextBlkNumber ∧
        (s.execute e.blkExecutable cmd).state.previousHash = s.previousHash) ∨
      ∃ arg txs, cmd = cmdAddTxs :: arg ∧ toSeal arg = some txs ∧
        committed e s cmd = some (e.executeBlk s.blk (s.sealed txs)).toBlk ∧
        (s.execute e.blkExecutable cmd).state.nextBlkNumber = s.nextBlkNumber + 1 ∧
        (s.execute e.blkExecutable cmd).state.previousHash = (s.sealed txs).hash := by
  match cmd with
  | [] => exact .inl ⟨.inl rfl, rfl, rfl⟩
  | c :: arg =>
    by_cases hc : c = cmdExecuteBlk
    · subst hc
      refine .inl ⟨.inr ⟨arg, rfl⟩, ?_⟩
      rw [execute, switchCmd_cmdExecuteBlk]
      exact handleExecuteBlk_frame s _
    by_cases hc' : c = cmdAddTxs
    · subst hc'
      have hexecute : s.execute e.blkExecutable (cmdAddTxs :: arg) =
          s.handleAddTxs e.blkExecutable (cmdAddTxs :: arg) := switchCmd_cmdAddTxs ..
      rw [committed, hexecute, handedBy_cmdAddTxs]
      rcases handleAddTxs_cases (E := e.blkExecutable) s cmdAddTxs arg with
        ⟨hnone, -, hstate⟩ | ⟨txs, htxs, hseal⟩
      · left
        rw [hstate, hnone]
        exact ⟨.inl (ite_self _), rfl, rfl⟩
      · rw [hseal, htxs]
        rcases sealBlkAndUpdateCmd_cases (s := s) (E := e.blkExecutable) txs with
          ⟨-, hreply, hnext, hhash⟩ | ⟨-, hreply, -, hnext, hhash⟩
        · left
          rw [hreply, if_neg (by decide)]
          exact ⟨.inl rfl, hnext, hhash⟩
        · right
          refine ⟨arg, txs, rfl, htxs, ?_, hnext, hhash⟩
          rw [if_pos hreply]
          rfl
    · obtain ⟨hstate, hcommitted⟩ := execute_of_ne (e := e) s hc hc' arg
      rw [hstate]
      exact .inl ⟨.inl hcommitted, rfl, rfl⟩

/-- A command that meets the condition keeps the node behind the last block it has committed. -/
theorem StandsBehind.execute {s : LightExecutorForCnsss W} {last : Option Blk} {cmd : Cmd}
    (hs : ∀ b ∈ last, s.StandsBehind b) (hcmd : Continues e (s, last) cmd) :
    ∀ b ∈ (committed e s cmd).or last,
      (s.execute e.blkExecutable cmd).state.StandsBehind b := by
  intro b hb
  rcases execute_cases (e := e) s cmd with
    ⟨hkind, hnext, hhash⟩ | ⟨arg, txs, rfl, htxs, hcommitted, hnext, hhash⟩
  · -- number and hash are where they were
    have hbefore : s.StandsBehind b := by
      cases hcommitted : committed e s cmd with
      | none =>
        rw [hcommitted, Option.none_or] at hb
        exact hs b hb
      | some b' =>
        rw [hcommitted, Option.some_or] at hb
        obtain rfl := Option.some.inj hb
        rcases hkind with hnone | ⟨arg, rfl⟩
        · rw [hnone] at hcommitted
          cases hcommitted
        · exact hcmd.executeBlk arg _ rfl hcommitted
    exact ⟨hnext.trans hbefore.1, hhash.trans hbefore.2⟩
  · rw [hcommitted, Option.some_or] at hb
    obtain rfl := Option.some.inj hb
    have hexec : (e.executeBlk s.blk (s.sealed txs)).toBlk = s.sealed txs := by
      simp only [BlkExecutor.executeBlk, sealed, nextBlk, hcmd.addTxs arg txs rfl htxs]
    rw [hexec]
    exact ⟨hnext, hhash⟩

/-- **The next block follows the last one.**  In every run of the light executor under any commands
that meet `Continues`: if `b` is the last block that was committed, by `ADD_TXS` or by
`EXECUTE_BLK`, then the block that the next `ADD_TXS` seals has the number after that of `b`, and
the hash of `b` as its parent hash. -/
theorem seal_continues {p : LightExecutorForCnsss W × Option Blk}
    (h : ((mixedSys e).only (Continues e)).Reach p) {b b' : Blk} (hb : p.2 = some b) {arg : Bytes}
    (hseal : p.1.handedBy (cmdAddTxs :: arg) = some b') :
    b'.number = b.number + 1 ∧ b'.parentHash = b.hash := by
  have hstands : ∀ b ∈ p.2, p.1.StandsBehind b := by
    refine h.invariant (I := fun p => ∀ b ∈ p.2, p.1.StandsBehind b) ?_ ?_
    · intro p hp b hb
      rw [show p.2 = none from hp] at hb
      cases hb
    · intro p cmd _ hp hl
      exact StandsBehind.execute hp hl.2
  rw [handedBy_cmdAddTxs] at hseal
  obtain ⟨txs, -, rfl⟩ := Option.map_eq_some_iff.1 hseal
  exact hstands b hb

omit [Keccak] [Pb hiPb.TxOnBlkInfo] [Pb hiPb.ExecBlk] [Pb hiPb.Blk] [Pb hiPb.Txs] in
/-- Two blocks that the node seals itself; between them it is given the first one back. -/
theorem seal_continues_own :
    let _ : Keccak := Sponge.keccak
    let _ : HashOrder Bytes32 := .insertion Bytes32
    let _ : Pb hiPb.Acn := Wire.pb hiPb.Acn
    let _ : Pb hiPb.Txs := Wire.pb hiPb.Txs
    let _ : Pb hiPb.Blk := Wire.pb hiPb.Blk
    let _ : Pb hiPb.TxOnBlkInfo := Wire.pb hiPb.TxOnBlkInfo
    let _ : Pb hiPb.ExecBlk := Wire.pb hiPb.ExecBlk
    let e : BlkExecutor InRamWorldStorage :=
      ⟨InRamWorldStorage.storage, BlkExecutor.counter, some fun t => t.nonce ≠ 9⟩
    let s : LightExecutorForCnsss InRamWorldStorage := ⟨⟨∅, ∅⟩, .create ∅ 2, 0, .zero 32, 2⟩
    let tx (n : UInt64) := Tx.create (makeAddress 1) (makeAddress 2) [] n 0
    let b : Blk := ⟨0, .zero 32, [tx 7]⟩
    let p := (mixedSys e).act
      ((mixedSys e).act (s, none) (cmdAddTxs :: Tx.serializeFromArray [tx 7]))
      (cmdExecuteBlk :: b.toString)
    p.2 = some b ∧ ∃ b', p.1.handedBy (cmdAddTxs :: Tx.serializeFromArray [tx 8]) = some b' ∧
      b'.number = 1 ∧ b'.parentHash = b.hash := by
  intro _ _ _ _ _ _ _ e s tx b p
  have hlast : p.2 = some b := by decide +kernel
  have htxs : toSeal (Tx.serializeFromArray [tx 7]) = some [tx 7] := by decide +kernel
  let p₁ := (mixedSys e).act (s, none) (cmdAddTxs :: Tx.serializeFromArray [tx 7])
  have hown : Continues e (s, none) (cmdAddTxs :: Tx.serializeFromArray [tx 7]) := by
    constructor
    · rintro arg txs harg h
      obtain rfl := (List.cons.inj harg).2
      obtain rfl := Option.some.inj (htxs.symm.trans h)
      decide +kernel
    · intro arg b harg
      cases (List.cons.inj harg).1
  have hback : committed e p₁.1 (cmdExecuteBlk :: b.toString) = some b := by decide +kernel
  have hgiven : Continues e p₁ (cmdExecuteBlk :: b.toString) := by
    constructor
    · intro arg txs harg
      cases (List.cons.inj harg).1
    · intro arg b' _ hb'
      obtain rfl := Option.some.inj (hback.symm.trans hb')
      exact ⟨by decide +kernel, by decide +kernel⟩
  have hreach₁ : ((mixedSys e).only (Continues e)).Reach p₁ :=
    Sys.Reach.act_only (.init rfl) trivial hown
  have hreach : ((mixedSys e).only (Continues e)).Reach p :=
    Sys.Reach.act_only hreach₁ trivial hgiven
  have hnext : (p.1.handedBy (cmdAddTxs :: Tx.serializeFromArray [tx 8])).isSome = true := by
    decide +kernel
  obtain ⟨b', hb'⟩ := Option.isSome_iff_exists.1 hnext
  exact ⟨hlast, b', hb', seal_continues hreach hlast hb'⟩

omit [Keccak] [Pb hiPb.TxOnBlkInfo] [Pb hiPb.ExecBlk] [Pb hiPb.Blk] [Pb hiPb.Txs] in
/-- A node that executes the first block of the chain as it comes from another node, and then seals
one itself: it seals another first block. -/
theorem not_seal_continues_elsewhere :
    let _ : Keccak := Sponge.keccak
    let _ : HashOrder Bytes32 := .insertion Bytes32
    let _ : Pb hiPb.Acn := Wire.pb hiPb.Acn
    let _ : Pb hiPb.Txs := Wire.pb hiPb.Txs
    let _ : Pb hiPb.Blk := Wire.pb hiPb.Blk
    let _ : Pb hiPb.TxOnBlkInfo := Wire.pb hiPb.TxOnBlkInfo
    let _ : Pb hiPb.ExecBlk := Wire.pb hiPb.ExecBlk
    let e : BlkExecutor InRamWorldStorage :=
      ⟨InRamWorldStorage.storage, BlkExecutor.counter, some fun t => t.nonce ≠ 9⟩
    ¬∀ p : LightExecutorForCnsss InRamWorldStorage × Option Blk, (mixedSys e).Reach p →
      ∀ b b' arg, p.2 = some b → p.1.handedBy (cmdAddTxs :: arg) = some b' →
        b'.number = b.number + 1 ∧ b'.parentHash = b.hash := by
  intro _ _ _ _ _ _ _ e hall
  let s : LightExecutorForCnsss InRamWorldStorage := ⟨⟨∅, ∅⟩, .create ∅ 2, 0, .zero 32, 2⟩
  let tx (n : UInt64) := Tx.create (makeAddress 1) (makeAddress 2) [] n 0
  let b : Blk := ⟨0, .zero 32, [tx 7]⟩
  let p := (mixedSys e).act (s, none) (cmdExecuteBlk :: b.toString)
  have hreach : (mixedSys e).Reach p := Sys.Reach.act (.init rfl) trivial
  have hlast : p.2 = some b := by decide +kernel
  have hseal : p.1.handedBy (cmdAddTxs :: Tx.serializeFromArray [tx 8]) =
      some ⟨0, .zero 32, [tx 8]⟩ := by decide +kernel
  have hnumber := (hall p hreach _ _ _ hlast hseal).1
  revert hnumber
  decide

end Continued

end LightExecutorForCnsss

end WeakChain
