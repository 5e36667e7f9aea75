import WeakChain.Cnsss.Chain

/-!
# Batches that cannot be read

`ADD_TXS` carries a serialized list of transactions.  `parse_to_array` does not look at what
`ParseFromString` returns, and a parser that fails may have filled in the transactions in front of
the place where it failed.  So a payload that has been cut off is not refused as a whole: what could
be read of it is added (`ExecutorForCnsss.refuses_iff`) or sealed
(`LightExecutorForCnsss.refuses_iff`), unless one of these transactions is itself invalid.

`malformed_refused_iff` says when such a payload is refused.
-/

namespace WeakChain

/-! ### What is left of a payload -/

section Payload

variable [Pb hiPb.Txs]

/-- What `ParseFromString` has filled in, whatever it returns. -/
def filledIn (arg : Bytes) : List hiPb.Tx := (parseFromString (M := hiPb.Txs) arg).2.txs

variable [Keccak]

/-- One of the transactions that have been filled in is invalid. -/
def HoldsInvalid (arg : Bytes) : Prop := ∃ pb ∈ filledIn arg, ∃ e, Tx.fromPb pb = .error e

/-- The payload is not a serialized message, or holds an invalid transaction. -/
def Malformed (arg : Bytes) : Prop :=
  (parseFromString (M := hiPb.Txs) arg).1 = false ∨ HoldsInvalid arg

theorem parseToArray_eq_error_iff {arg : Bytes} :
    (∃ e, Tx.parseToArray arg = .error e) ↔ HoldsInvalid arg :=
  Traverse.mapM_eq_error_iff

theorem not_holdsInvalid {arg : Bytes} {txs : List Tx} (h : Tx.parseToArray arg = .ok txs) :
    ¬HoldsInvalid arg := fun hinvalid => by
  obtain ⟨e, he⟩ := parseToArray_eq_error_iff.2 hinvalid
  exact nomatch h.symm.trans he

/-- Every transaction that has been filled in is taken. -/
theorem length_filledIn {arg : Bytes} {txs : List Tx} (h : Tx.parseToArray arg = .ok txs) :
    (filledIn arg).length = txs.length :=
  (Traverse.forall₂_of_mapM_eq_ok h).length_eq

end Payload

/-! ### The pool -/

namespace Mempool

variable [Keccak] {p : Mempool}

/-- Everything is rejected if and only if all hashes are known. -/
theorem addTxs_eq_nil_iff {ts : List Tx} :
    (p.addTxs ts).2 = [] ↔ ∀ t ∈ ts, t.hash ∈ p.hs := by
  induction ts with
  | nil => exact iff_of_true rfl (by simp)
  | cons t ts ih =>
    rw [List.forall_mem_cons]
    by_cases ht : t.hash ∈ p.hs
    · rw [addTxs_cons_of_mem ht, ih, and_iff_right ht]
    · rw [addTxs_cons_of_notMem ht]
      exact iff_of_false (List.cons_ne_nil _ _) fun h => ht h.1

/-- Then the pool is as it was. -/
theorem addTxs_of_forall_mem {ts : List Tx} (h : ∀ t ∈ ts, t.hash ∈ p.hs) :
    p.addTxs ts = (p, []) := by
  induction ts with
  | nil => rfl
  | cons t ts ih =>
    rw [List.forall_mem_cons] at h
    rw [addTxs_cons_of_mem h.1, ih h.2]

end Mempool

variable [Keccak] [Pb hiPb.Txs]

open ExecutorForCnsss

/-! ### The executors -/

namespace ExecutorForCnsss

variable {B : Type*}

/-- A command is answered with an error and emptied, and the pool is as it was. -/
structure Refuses [BoostJson] (E : IBlkExecutable B) (s : ExecutorForCnsss B) (c : Cmd) : Prop where
  reply : (s.execute E c).1.reply ≠ ascii "OK"
  cmd : (s.execute E c).1.cmd = []
  pool : (s.execute E c).1.state.pool = s.pool

/-- A handler that complains refuses. -/
theorem refuses_of_complain [BoostJson] {E : IBlkExecutable B} {s : ExecutorForCnsss B}
    {arg reason : Bytes} (hreason : reason ≠ ascii "OK")
    (h : s.handleAddTxs (cmdAddTxs :: arg) = clearCmdAndComplain s reason) :
    s.Refuses E (cmdAddTxs :: arg) := by
  have hexecute : (s.execute E (cmdAddTxs :: arg)).1 = clearCmdAndComplain s reason := h
  constructor
  · rwa [hexecute]
  · rw [hexecute]
    rfl
  · rw [hexecute]
    rfl

theorem refuses_iff [BoostJson] (E : IBlkExecutable B) (s : ExecutorForCnsss B) (arg : Bytes) :
    s.Refuses E (cmdAddTxs :: arg) ↔ HoldsInvalid arg ∨
      ∀ pb ∈ filledIn arg, ∀ t, Tx.fromPb pb = .ok t → t.hash ∈ s.pool.hs := by
  have hexecute : (s.execute E (cmdAddTxs :: arg)).1 = s.handleAddTxs (cmdAddTxs :: arg) := rfl
  have hdrop : (cmdAddTxs :: arg).drop 1 = arg := rfl
  cases hparse : Tx.parseToArray arg with
  | error e =>
    have hreason : ascii "Error parsing Txs" ≠ ascii "OK" := by decide
    refine iff_of_true (refuses_of_complain hreason ?_)
      (.inl (parseToArray_eq_error_iff.1 ⟨e, hparse⟩))
    rw [handleAddTxs, hdrop, hparse]
  | ok txs =>
    have hmem : (∀ pb ∈ filledIn arg, ∀ t, Tx.fromPb pb = .ok t → t.hash ∈ s.pool.hs) ↔
        ∀ t ∈ txs, t.hash ∈ s.pool.hs := by
      constructor
      · intro h t ht
        obtain ⟨pb, hpb, hok⟩ := (Traverse.mem_of_mapM_eq_ok hparse).1 ht
        exact h pb hpb t hok
      · exact fun h pb hpb t hok => h t ((Traverse.mem_of_mapM_eq_ok hparse).2 ⟨pb, hpb, hok⟩)
    rw [or_iff_right (not_holdsInvalid hparse), hmem]
    by_cases hknown : ∀ t ∈ txs, t.hash ∈ s.pool.hs
    · have hreason : ascii "All txs rejected" ≠ ascii "OK" := by decide
      refine iff_of_true (refuses_of_complain hreason ?_) hknown
      simp only [handleAddTxs, hdrop, hparse, Mempool.addTxs_of_forall_mem hknown, if_true]
    · refine iff_of_false (fun h => ?_) hknown
      -- something is added, and the answer is `OK`
      have hne : (s.pool.addTxs txs).2 ≠ [] := fun h => hknown (Mempool.addTxs_eq_nil_iff.1 h)
      have hreply := h.reply
      rw [hexecute] at hreply
      simp only [handleAddTxs, hdrop, hparse, if_neg hne] at hreply
      split_ifs at hreply
      · exact hreply rfl
      · exact hreply rfl

end ExecutorForCnsss

namespace LightExecutorForCnsss

variable {W : Type*} [Pb hiPb.Blk]

/-- A command is answered with an error and emptied, and the chain and the number of the next block
are as they were. -/
structure Refuses (E : IBlkExecutable W) (s : LightExecutorForCnsss W) (c : Cmd) : Prop where
  reply : (s.execute E c).reply ≠ ascii "OK"
  cmd : (s.execute E c).cmd = []
  blk : (s.execute E c).state.blk = s.blk
  nextBlkNumber : (s.execute E c).state.nextBlkNumber = s.nextBlkNumber

variable {E : IBlkExecutable W} {s : LightExecutorForCnsss W}

omit [Pb hiPb.Txs] in
/-- The command is emptied if and only if the block could not be committed. -/
theorem sealBlkAndUpdateCmd_commit (E : IBlkExecutable W) (s : LightExecutorForCnsss W)
    (txs : List Tx) :
    (s.sealBlkAndUpdateCmd E txs).state.blk = (E.executeAndCommit s.blk (s.sealed txs)).1 ∧
      ((s.sealBlkAndUpdateCmd E txs).cmd = [] ↔
        (E.executeAndCommit s.blk (s.sealed txs)).2 = false) := by
  have hsealed : (s.wash txs).1.nextBlk (s.wash txs).2 = s.sealed txs := by
    simp [sealed, nextBlk]
  have hcommit : E.executeAndCommit (s.wash txs).1.blk ((s.wash txs).1.nextBlk (s.wash txs).2) =
      E.executeAndCommit s.blk (s.sealed txs) := by rw [wash_blk, hsealed]
  simp only [sealBlkAndUpdateCmd, hcommit]
  rcases E.executeAndCommit s.blk (s.sealed txs) with ⟨w, _ | _⟩
  · exact ⟨rfl, iff_of_true rfl rfl⟩
  · exact ⟨rfl, iff_of_false (List.cons_ne_nil _ _) Bool.noConfusion⟩

/-- A handler that complains refuses. -/
theorem refuses_of_complain {arg reason : Bytes} (hreason : reason ≠ ascii "OK")
    (h : s.handleAddTxs E (cmdAddTxs :: arg) = clearCmdAndComplain s reason) :
    s.Refuses E (cmdAddTxs :: arg) := by
  have hexecute : s.execute E (cmdAddTxs :: arg) = clearCmdAndComplain s reason := h
  constructor
  · rwa [hexecute]
  all_goals
    rw [hexecute]
    rfl

theorem refuses_iff (E : IBlkExecutable W) (s : LightExecutorForCnsss W) (arg : Bytes) :
    s.Refuses E (cmdAddTxs :: arg) ↔ HoldsInvalid arg ∨ filledIn arg = [] ∨
      ∃ txs, Tx.parseToArray arg = .ok txs ∧
        E.executeAndCommit s.blk (s.sealed txs) = (s.blk, false) := by
  have hexecute : s.execute E (cmdAddTxs :: arg) = s.handleAddTxs E (cmdAddTxs :: arg) := rfl
  have hdrop : (cmdAddTxs :: arg).drop 1 = arg := rfl
  cases hparse : Tx.parseToArray arg with
  | error e =>
    have hout : s.handleAddTxs E (cmdAddTxs :: arg) =
        clearCmdAndComplain s (ascii "Error parsing Txs" ++ e) := by
      rw [handleAddTxs, hdrop, hparse]
    exact iff_of_true (refuses_of_complain (fun h => by cases h) hout)
      (.inl (parseToArray_eq_error_iff.1 ⟨e, hparse⟩))
  | ok txs =>
    rw [or_iff_right (not_holdsInvalid hparse), ← List.length_eq_zero_iff, length_filledIn hparse,
      List.length_eq_zero_iff]
    by_cases htxs : txs = []
    · have hout : s.handleAddTxs E (cmdAddTxs :: arg) =
          clearCmdAndComplain s (ascii "Error parsing Txs" ++
            ascii "Parsing txs results in a zero-length array.") := by
        simp only [handleAddTxs, hdrop, hparse, if_pos htxs]
      exact iff_of_true (refuses_of_complain (fun h => by cases h) hout) (.inl htxs)
    · have hout : s.handleAddTxs E (cmdAddTxs :: arg) = s.sealBlkAndUpdateCmd E txs := by
        simp only [handleAddTxs, hdrop, hparse, if_neg htxs]
      simp only [or_iff_right htxs, Except.ok.injEq, exists_eq_left']
      obtain ⟨hblk, hcmd⟩ := sealBlkAndUpdateCmd_commit E s txs
      rw [← hout, ← hexecute] at hblk hcmd
      constructor
      · intro h
        exact Prod.ext (hblk.symm.trans h.blk) (hcmd.1 h.cmd)
      · intro h
        obtain ⟨hstate, hfailed⟩ := Prod.ext_iff.1 h
        rcases sealBlkAndUpdateCmd_cases (E := E) (s := s) txs with
          ⟨-, hreply, hnumber, -⟩ | ⟨hok, -⟩
        · rw [← hout, ← hexecute] at hreply hnumber
          refine ⟨?_, hcmd.2 hfailed, hblk.trans hstate, hnumber⟩
          rw [hreply]
          exact fun h => by cases h
        · exact Bool.noConfusion (hfailed.symm.trans hok)

end LightExecutorForCnsss

/-! ### The command `ADD_TXS` -/

variable {B : Type*} [BoostJson] [Pb hiPb.Blk]

/-- **When a malformed batch is refused.**  A payload that is not a serialized message, or holds an
invalid transaction, is refused by the normal executor `s` and by the light executor `l` in exactly
these cases: it is a serialized message (and so holds an invalid transaction), or an invalid
transaction has been filled in, or what has been filled in leaves nothing to do.  For `s` that is a
list of transactions whose hashes are all known, for `l` an empty list, or a block that cannot be
committed. -/
theorem malformed_refused_iff (E : IBlkExecutable B) (s : ExecutorForCnsss B)
    (l : LightExecutorForCnsss B) (arg : Bytes) :
    ((Malformed arg → s.Refuses E (cmdAddTxs :: arg)) ↔
      (parseFromString (M := hiPb.Txs) arg).1 = true ∨ HoldsInvalid arg ∨
        ∀ pb ∈ filledIn arg, ∀ t, Tx.fromPb pb = .ok t → t.hash ∈ s.pool.hs) ∧
    ((Malformed arg → l.Refuses E (cmdAddTxs :: arg)) ↔
      (parseFromString (M := hiPb.Txs) arg).1 = true ∨ HoldsInvalid arg ∨ filledIn arg = [] ∨
        ∃ txs, Tx.parseToArray arg = .ok txs ∧
          E.executeAndCommit l.blk (l.sealed txs) = (l.blk, false)) := by
  -- a message that can be read is malformed only if it holds an invalid transaction
  have hmalformed : ∀ {refused rest : Prop}, (refused ↔ HoldsInvalid arg ∨ rest) →
      ((Malformed arg → refused) ↔
        (parseFromString (M := hiPb.Txs) arg).1 = true ∨ HoldsInvalid arg ∨ rest) := by
    intro refused rest h
    rw [h, Malformed]
    cases hread : (parseFromString (M := hiPb.Txs) arg).1 with
    | false => simp
    | true => simpa using Or.inl
  exact ⟨hmalformed (s.refuses_iff E arg), hmalformed (l.refuses_iff E arg)⟩

omit [Keccak] [Pb hiPb.Txs] [BoostJson] [Pb hiPb.Blk] in
/-- A batch of one transaction and a single byte more: the transaction is added, and sealed. -/
theorem not_malformed_refused :
    let _ : Keccak := Sponge.keccak
    let _ : HashOrder Bytes32 := .insertion Bytes32
    let _ : BoostJson := ⟨fun _ => none, fun _ => none⟩
    let _ : Pb hiPb.Acn := Wire.pb hiPb.Acn
    let _ : Pb hiPb.Txs := Wire.pb hiPb.Txs
    let _ : Pb hiPb.Blk := Wire.pb hiPb.Blk
    let _ : Pb hiPb.TxOnBlkInfo := Wire.pb hiPb.TxOnBlkInfo
    let _ : Pb hiPb.ExecBlk := Wire.pb hiPb.ExecBlk
    let e := (BlkExecutor.inRam BlkExecutor.counter).blkExecutable
    let s : ExecutorForCnsss InRamWorldStorage := ⟨⟨∅, ∅⟩, .create ∅ 2⟩
    let l : LightExecutorForCnsss InRamWorldStorage := ⟨⟨∅, ∅⟩, .create ∅ 2, 5, .zero 32, 0⟩
    let tx := Tx.create (makeAddress 1) (makeAddress 2) [] 7 0
    let arg := Tx.serializeFromArray [tx] ++ [10]
    Malformed arg ∧ ¬s.Refuses e (cmdAddTxs :: arg) ∧ ¬l.Refuses e (cmdAddTxs :: arg) := by
  intro _ _ _ _ _ _ _ _ e s l tx arg
  have hunreadable : (parseFromString (M := hiPb.Txs) arg).1 = false := by decide +kernel
  have hadded : (s.execute e (cmdAddTxs :: arg)).1.cmd = cmdAddTxs :: arg := by decide +kernel
  have hsealed : (l.execute e (cmdAddTxs :: arg)).cmd =
      cmdExecuteBlk :: Blk.toString ⟨5, .zero 32, [tx]⟩ := by decide +kernel
  refine ⟨.inl hunreadable, fun h => ?_, fun h => ?_⟩
  · exact List.cons_ne_nil _ _ (hadded.symm.trans h.cmd)
  · exact List.cons_ne_nil _ _ (hsealed.symm.trans h.cmd)

end WeakChain
