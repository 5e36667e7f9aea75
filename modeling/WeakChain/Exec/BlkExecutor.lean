import WeakChain.Cnsss.Executor
import WeakChain.Exec.Storage
import WeakChain.Lib.Batch

/-!
# The block executor

`BlkExecutor` is the `IBlkExecutable` of the chain.  `executeBlk` drops the transactions that the
verifier refuses and executes the others, all of them against the world as it is before the block;
`commitBlk` writes the place of every transaction into the chain database, applies its journal to
the state database, and writes the block.

So a block is a batch executed on a snapshot (`Batch.snapshot`).  The main result says this of the
state database and of the receipts, and when it is the same as executing the transactions in
sequence.
-/

namespace WeakChain

/-- `ITxExecutable`: the journal and the result of a transaction, or nothing if it fails. -/
structure ITxExecutable where
  /-- `executeTx`. -/
  executeTx : IAcnGettable → Tx → Option (Journal × Bytes)

/-- The journal of a transaction; empty if it failed. -/
def journalOf (r : Option (Journal × Bytes)) : Journal :=
  match r with
  | none => []
  | some (j, _) => j

/-- The receipt of a transaction. -/
def receiptOf (t : Tx) (r : Option (Journal × Bytes)) : TxReceipt :=
  match r with
  | none => .failed t.type
  | some (_, b) => .succeeded b t.type

/-- `BlkExecutor` over a storage with states `W`. -/
structure BlkExecutor (W : Type*) where
  /-- The storage (`world` and `readOnlyWorld`). -/
  world : IWorldStorage W
  /-- The executor of the transactions. -/
  txExecutor : ITxExecutable
  /-- The verifier, if there is one. -/
  txVerifier : Option (Tx → Bool)

namespace BlkExecutor

variable {W : Type*} (e : BlkExecutor W)

/-- `filterTxs`, if there is a verifier. -/
def filterTxs (txs : List Tx) : List Tx :=
  match e.txVerifier with
  | none => txs
  | some verify => txs.filter verify

/-- `executeBlk`. -/
def executeBlk (w : W) (b : Blk) : ExecBlk :=
  let txs := e.filterTxs b.txs
  let execute (t : Tx) := e.txExecutor.executeTx (e.world.getAcn w) t
  { number := b.number
    parentHash := b.parentHash
    txs := txs
    stateChanges := txs.map fun t => journalOf (execute t)
    txReceipts := txs.map fun t => receiptOf t (execute t)
    length_stateChanges := by simp
    length_txReceipts := by simp }

variable {e} in
/-- The receipt of a transaction of the block. -/
theorem txReceipts_executeBlk {w : W} {b : Blk} {i : ℕ} {t : Tx}
    (ht : (e.executeBlk w b).txs[i]? = some t) :
    (e.executeBlk w b).txReceipts[i]? =
      some (receiptOf t (e.txExecutor.executeTx (e.world.getAcn w) t)) := by
  change ((e.executeBlk w b).txs.map _)[i]? = _
  rw [List.getElem?_map, ht]
  rfl

variable [Keccak] [Pb hiPb.TxOnBlkInfo]

/-- The loop of `commitBlk`, from position `i` on.  Whether the place of the transaction could be
written is not looked at. -/
def commitTxs (number : UInt64) : ℕ → W → List (Tx × Journal) → W × Bool
  | _, w, [] => (w, true)
  | i, w, (t, j) :: rest =>
    let info : TxOnBlkInfo := ⟨number, .ofNat i⟩
    let w := (e.world.setInChainDB w (ascii "/tx/" ++ hashToString t.hash) info.toString).1
    -- `ok` is overwritten here, so a failure of the write above is not noticed
    match e.world.applyJournalStateDB w j with
    | (w, false) => (w, false)
    | (w, true) => commitTxs number (i + 1) w rest

/-- `commitBlk`. -/
def commitBlk [Pb hiPb.ExecBlk] (w : W) (b : ExecBlk) : W × Bool :=
  match e.commitTxs b.number 0 w (b.txs.zip b.stateChanges) with
  | (w, false) => (w, false)
  | (w, true) =>
    let bn := decimal b.number.toNat
    match e.world.setInChainDB w (ascii "/blk/" ++ bn) b.toString with
    | (w, false) => (w, false)
    | (w, true) => e.world.setInChainDB w (ascii "/other/blk_number") bn

/-- `BlkExecutor`, as a block executor. -/
def blkExecutable [Pb hiPb.ExecBlk] : IBlkExecutable W := ⟨e.executeBlk, e.commitBlk⟩

section Success

variable {e} (h : e.world.WritesSucceed)
include h

theorem commitTxs_ok (number : UInt64) (i : ℕ) (w : W) (tjs : List (Tx × Journal)) :
    (e.commitTxs number i w tjs).2 = true := by
  induction tjs generalizing i w with
  | nil => rfl
  | cons tj tjs ih =>
    obtain ⟨t, j⟩ := tj
    rw [commitTxs]
    split
    · next heq => exact (congrArg Prod.snd heq).symm.trans (h.applyJournalStateDB _ _)
    · exact ih (i + 1) _

/-- A block is committed if the writes succeed. -/
theorem commitBlk_ok [Pb hiPb.ExecBlk] (w : W) (b : ExecBlk) : (e.commitBlk w b).2 = true := by
  rw [commitBlk]
  split
  · next heq => exact (congrArg Prod.snd heq).symm.trans (commitTxs_ok h _ _ _ _)
  · dsimp only
    split
    · next heq => exact (congrArg Prod.snd heq).symm.trans (h.setInChainDB _ _ _)
    · exact h.setInChainDB _ _ _

end Success

/-! ### A block is a batch on a snapshot -/

omit [Keccak] [Pb hiPb.TxOnBlkInfo] in
/-- The block executor over the storage in memory, without a verifier. -/
def inRam [Pb hiPb.Acn] (E : ITxExecutable) : BlkExecutor InRamWorldStorage :=
  ⟨InRamWorldStorage.storage, E, none⟩

omit [Keccak] [Pb hiPb.TxOnBlkInfo] in
/-- What a transaction returns on a state database. -/
def execOn [Pb hiPb.Acn] (E : ITxExecutable) (db : StateDB) (t : Tx) : Option (Journal × Bytes) :=
  E.executeTx (StateDB.getAcn db) t

omit [Keccak] [Pb hiPb.TxOnBlkInfo] in
/-- Apply what a transaction returned. -/
def applyResult (db : StateDB) (r : Option (Journal × Bytes)) : StateDB :=
  StateDB.applyJournal db (journalOf r)

variable [Pb hiPb.Acn] (E : ITxExecutable)

theorem stateDB_commitTxs (number : UInt64) (i : ℕ) (w : InRamWorldStorage)
    (tjs : List (Tx × Journal)) :
    ((inRam E).commitTxs number i w tjs).1.stateDB =
      (tjs.map Prod.snd).foldl StateDB.applyJournal w.stateDB := by
  induction tjs generalizing i w with
  | nil => rfl
  | cons tj tjs ih =>
    obtain ⟨t, j⟩ := tj
    exact ih (i + 1) _

variable [Pb hiPb.ExecBlk]

theorem stateDB_commitBlk (w : InRamWorldStorage) (b : ExecBlk) :
    ((inRam E).commitBlk w b).1.stateDB =
      b.stateChanges.foldl StateDB.applyJournal w.stateDB := by
  have hdb := stateDB_commitTxs E b.number 0 w (b.txs.zip b.stateChanges)
  rw [List.map_snd_zip b.length_stateChanges.ge] at hdb
  rw [commitBlk]
  split
  · next heq => rwa [heq] at hdb
  · next heq => rwa [heq] at hdb

/-- **A block is a batch on a snapshot.**  For every storage, every executor of transactions and
every block: the block is committed; the state database afterwards is what applying the journals of
the transactions in order makes of it, each transaction having been executed against the state
database before the block; and the receipts are those of these executions.  All transactions return
what they return when they are executed in sequence if and only if each of them returns the same
against the state database that the journals before it have produced; and then the database and the
receipts are those of the execution in sequence. -/
theorem commitBlk_executeBlk (w : InRamWorldStorage) (b : Blk) :
    let executed := (inRam E).executeBlk w b
    let committed := (inRam E).commitBlk w executed
    let snap := Batch.snapshot (execOn E) applyResult w.stateDB w.stateDB b.txs
    let seq := Batch.sequential (execOn E) applyResult w.stateDB b.txs
    committed.2 = true ∧ committed.1.stateDB = snap.1 ∧
      executed.txReceipts = List.zipWith receiptOf b.txs snap.2 ∧
      (seq.2 = snap.2 ↔ Batch.Undisturbed (execOn E) applyResult w.stateDB w.stateDB b.txs) ∧
      (Batch.Undisturbed (execOn E) applyResult w.stateDB w.stateDB b.txs →
        committed.1.stateDB = seq.1 ∧
          executed.txReceipts = List.zipWith receiptOf b.txs seq.2) := by
  intro executed committed snap seq
  have hok : committed.2 = true := commitBlk_ok InRamWorldStorage.writesSucceed w executed
  have hsnap : committed.1.stateDB = snap.1 := by
    rw [stateDB_commitBlk]
    -- both sides fold the journals over the database
    simp only [snap, Batch.snapshot, List.foldl_map]
    exact List.foldl_map
  have hreceipts : executed.txReceipts = List.zipWith receiptOf b.txs snap.2 := by
    simp only [snap, Batch.snapshot, List.zipWith_map_right, List.zipWith_self]
    rfl
  refine ⟨hok, hsnap, hreceipts, Batch.results_eq_iff, ?_⟩
  intro h
  have hseq : seq = snap := Batch.sequential_eq_snapshot h
  rw [hseq]
  exact ⟨hsnap, hreceipts⟩

omit [Keccak] [Pb hiPb.TxOnBlkInfo] [Pb hiPb.ExecBlk] in
/-- Transactions are not disturbed if none of them reads an account that one before it writes. -/
theorem undisturbed_of_reads {reads : Tx → Set Address} {db : StateDB} {txs : List Tx}
    (hreads : ∀ t (w w' : IAcnGettable), (∀ a ∈ reads t, w a = w' a) →
      E.executeTx w t = E.executeTx w' t)
    (hwrites : txs.Pairwise fun u t =>
      ∀ c ∈ journalOf (execOn E db u), ∀ a ∈ reads t, c.k ≠ addressToString a) :
    Batch.Undisturbed (execOn E) applyResult db db txs := by
  refine Batch.undisturbed_of_frame
    (fun t s s' => ∀ a ∈ reads t, StateDB.getAcn s a = StateDB.getAcn s' a)
    (fun t s s' h => hreads t _ _ h) (hwrites.imp ?_) fun _ _ _ _ => rfl
  intro u t h s hs a ha
  exact (StateDB.getAcn_applyJournal fun c hc => h c hc a ha).trans (hs a ha)

omit [Keccak] [Pb hiPb.TxOnBlkInfo] [Pb hiPb.ExecBlk] in
/-- An executor that counts: it adds one to the nonce of the receiver and returns the old one. -/
def counter [HashOrder Bytes32] : ITxExecutable where
  executeTx w t :=
    let n := ((w t.toAddr).getD {}).nonce
    some ([⟨false, addressToString t.toAddr, ({ nonce := n + 1 } : Acn).toString⟩], be64 n)

omit [Keccak] [Pb hiPb.TxOnBlkInfo] [Pb hiPb.Acn] [Pb hiPb.ExecBlk] in
/-- Two transactions of a block that count for the same account: in sequence they count to two, in a
block only to one, and both return zero. -/
theorem commitBlk_ne_sequential :
    let _ : Keccak := Sponge.keccak
    let _ : HashOrder Bytes32 := .insertion Bytes32
    let _ : Pb hiPb.Acn := Wire.pb hiPb.Acn
    let _ : Pb hiPb.TxOnBlkInfo := Wire.pb hiPb.TxOnBlkInfo
    let _ : Pb hiPb.ExecBlk := Wire.pb hiPb.ExecBlk
    let w : InRamWorldStorage := ⟨∅, ∅⟩
    let tx (n : UInt64) := Tx.create (makeAddress 1) (makeAddress 2) [] n 0
    let b : Blk := ⟨0, .zero 32, [tx 0, tx 1]⟩
    let executed := (inRam counter).executeBlk w b
    let committed := (inRam counter).commitBlk w executed
    let seq := Batch.sequential (execOn counter) applyResult w.stateDB b.txs
    committed.1.stateDB ≠ seq.1 ∧ executed.txReceipts ≠ List.zipWith receiptOf b.txs seq.2 := by
  intro _ _ _ _ _ w tx b executed committed seq
  constructor
  · intro h
    have hlookup := congrArg (Finmap.lookup (addressToString (makeAddress 2))) h
    revert hlookup
    decide +kernel
  · decide +kernel

end BlkExecutor

end WeakChain
