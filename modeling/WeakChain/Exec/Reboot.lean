import WeakChain.Exec.Restore
import WeakChain.Lib.Run

/-!
# The life of a node

A node with the normal executor executes the commands of the consensus, and it is started again from
its databases, as often as one likes.  From each start on some writes succeed and then none: the
process has been stopped in the middle of a block, or its disk was full.

`applied` lists, over all starts, the transactions whose journals have reached the state database.
The pool, which knows what has been executed, is lost in between, but a start finds the hashes again
in the keys of the chain database, and a key is written before its journal is applied.  So no
transaction is applied twice (`applied_once`), unless a node starts from a chain without a latest
block after something has been applied: then the keys are not looked at (`exists_applied_twice`).
-/

namespace WeakChain

namespace Reboot

variable [Keccak] [Pb hiPb.Acn] [Pb hiPb.TxOnBlkInfo] [Pb hiPb.ExecBlk]

/-- The block executor over a storage that does some writes more. -/
def executor (E : ITxExecutable) (v : Option (Tx → Bool)) : BlkExecutor (InRamWorldStorage × ℕ) :=
  ⟨limited, E, v⟩

/-- A node, and what it has applied to its state database. -/
structure Life where
  /-- Its process, with the databases and the number of writes that they do. -/
  exec : ExecutorForCnsss (InRamWorldStorage × ℕ)
  /-- The transactions whose journals have been applied, over all starts. -/
  applied : List (Tx × Journal)

namespace Life

/-- The databases. -/
def disk (s : Life) : InRamWorldStorage := s.exec.blk.1

/-- The hashes of the transactions that have been applied. -/
def hashes (s : Life) : List Hash256 := s.applied.map fun p => p.1.hash

omit [Pb hiPb.Acn] [Pb hiPb.TxOnBlkInfo] [Pb hiPb.ExecBlk] in
theorem hashes_eq (s : Life) : s.hashes = (s.applied.map Prod.fst).map Tx.hash := by
  rw [List.map_map]
  rfl

end Life

/-- What may happen to a node. -/
inductive Event
  /-- A command of the consensus. -/
  | execute (cmd : Cmd)
  /-- A start, after which there will be so many writes. -/
  | boot (writes : ℕ)

/-- The transactions of a block whose journals are applied by so many writes: each of them takes two
writes, that of its place and that of its journal. -/
def appliedOf (writes : ℕ) (b : ExecBlk) : List (Tx × Journal) :=
  (b.txs.zip b.stateChanges).take (writes / 2)

section Act

variable [BoostJson] [Pb hiPb.Txs] (E : ITxExecutable) (v : Option (Tx → Bool)) (maxTxs : ℤ)

/-- What happens; a process that cannot read its databases does not start. -/
def act (s : Life) : Event → Life
  | .execute cmd =>
    let r := s.exec.execute (executor E v).blkExecutable cmd
    { exec := r.1.state
      applied := s.applied ++ r.2.flatMap fun b =>
        appliedOf s.exec.blk.2 ((executor E v).executeBlk s.exec.blk b) }
  | .boot writes =>
    match restore s.disk with
    | none => s
    | some R => { s with exec := ⟨(s.disk, writes), .create R.txhs maxTxs⟩ }

/-- The first start, with some accounts and an empty chain. -/
def firstBoot (st : StateDB) (writes : ℕ) : Life := ⟨⟨(⟨st, ∅⟩, writes), .create ∅ maxTxs⟩, []⟩

/-- The lives of nodes. -/
def sys (st : StateDB) : Sys Life Event where
  init s := ∃ writes, s = firstBoot maxTxs st writes
  enabled _ _ := True
  act := act E v maxTxs

end Act

/-- A start that does not forget what has been applied. -/
def Remembers (s : Life) : Event → Prop
  | .execute _ => True
  | .boot _ => s.applied = [] ∨ (s.disk.chainDB.lookup blkNumberKey).isSome = true

instance (s : Life) : ∀ e, Decidable (Remembers s e)
  | .execute _ => inferInstanceAs (Decidable True)
  | .boot _ => inferInstanceAs (Decidable (_ ∨ _))

instance [BoostJson] [Pb hiPb.Txs] (E : ITxExecutable) (v : Option (Tx → Bool)) (maxTxs : ℤ)
    (st : StateDB) (s : Life) (e : Event) : Decidable ((sys E v maxTxs st).enabled s e) :=
  inferInstanceAs (Decidable True)

/-! ### What a block leaves on the disk -/

section Commit

variable {E : ITxExecutable} {v : Option (Tx → Bool)}

omit [Keccak] [Pb hiPb.Acn] [Pb hiPb.TxOnBlkInfo] [Pb hiPb.ExecBlk] in
theorem map_fst_appliedOf (writes : ℕ) (b : ExecBlk) :
    (appliedOf writes b).map Prod.fst = b.txs.take (writes / 2) := by
  rw [appliedOf, List.map_take, b.map_fst_zip_stateChanges]

omit [Keccak] [Pb hiPb.Acn] [Pb hiPb.TxOnBlkInfo] [Pb hiPb.ExecBlk] in
theorem map_snd_appliedOf (writes : ℕ) (b : ExecBlk) :
    (appliedOf writes b).map Prod.snd = b.stateChanges.take (writes / 2) := by
  rw [appliedOf, List.map_take, b.map_snd_zip_stateChanges]

/-- The state database has the journals of what is applied. -/
theorem stateDB_commitBlk (w : InRamWorldStorage) (m : ℕ) (b : ExecBlk) :
    ((executor E v).commitBlk (w, m) b).1.1.stateDB =
      ((appliedOf m b).map Prod.snd).foldl StateDB.applyJournal w.stateDB := by
  obtain ⟨r, hr⟩ := commitBlk_limited (E := E) (v := v) m w b
  rw [executor, hr, map_snd_appliedOf]
  dsimp only
  split_ifs with hm
  · have hall : b.stateChanges.take (m / 2) = b.stateChanges :=
      List.take_of_length_le (by have := b.length_stateChanges; omega)
    rw [afterCommit_eq, hall]
  · rfl
  · rfl

/-- The chain database keeps its keys, and has those of what is applied. -/
theorem mem_chainDB_commitBlk (w : InRamWorldStorage) (m : ℕ) (b : ExecBlk) {k : Bytes}
    (hk : k ∈ w.chainDB ∨ ∃ t ∈ b.txs.take (m / 2), k = txKey t.hash) :
    k ∈ ((executor E v).commitBlk (w, m) b).1.1.chainDB := by
  obtain ⟨r, hr⟩ := commitBlk_limited (E := E) (v := v) m w b
  rw [executor, hr]
  dsimp only
  have htake : ∀ t ∈ b.txs.take (m / 2), t ∈ b.txs.take ((m + 1) / 2) := fun t ht =>
    (List.take_subset_take_left _ (by omega)) ht
  have hmem : k ∈ chainTxs b.number 0 w.chainDB (b.txs.take ((m + 1) / 2)) := by
    rw [mem_chainTxs]
    obtain hk | ⟨t, ht, rfl⟩ := hk
    · exact .inl hk
    · exact .inr ⟨t, htake t ht, rfl⟩
  split_ifs with hm hlast
  · have hall : b.txs.take ((m + 1) / 2) = b.txs := List.take_of_length_le (by omega)
    rw [hall] at hmem
    rw [afterCommit_eq]
    exact Finmap.mem_insert.2 (.inr (Finmap.mem_insert.2 (.inr hmem)))
  · exact Finmap.mem_insert.2 (.inr hmem)
  · exact hmem

end Commit

/-! ### What a start and a command do -/

omit [Pb hiPb.Acn] [Pb hiPb.TxOnBlkInfo] in
/-- A start from a chain with a latest block finds the hashes of all keys. -/
theorem mem_txhs_of_restore {w : InRamWorldStorage} {R : Restored} (hR : restore w = some R)
    (hnumber : (w.chainDB.lookup blkNumberKey).isSome = true) {h : Hash256}
    (hkey : txKey h ∈ w.chainDB) : h ∈ R.txhs := by
  obtain ⟨ns, hns⟩ := Option.isSome_iff_exists.1 hnumber
  rw [restore, hns] at hR
  obtain ⟨r, hr, rfl⟩ := Option.map_eq_some_iff.1 hR
  simp only [getRequiredThings, bind, Option.bind_eq_some_iff] at hr
  obtain ⟨n, -, b, -, hs, hhs, hr⟩ := hr
  obtain rfl := Option.some.inj hr
  rw [hashesOfKeys] at hhs
  split_ifs at hhs with hall
  obtain rfl := Option.some.inj hhs
  refine Finset.mem_image.2 ⟨txKey h, ?_, by rw [getHashFromKey_txKey]; rfl⟩
  rw [getKeysStartWith, Finset.mem_filter, Finmap.mem_keys]
  exact ⟨hkey, List.isPrefixOf_iff_prefix.2 (List.prefix_append _ _)⟩

omit [Pb hiPb.Acn] [Pb hiPb.TxOnBlkInfo] [Pb hiPb.ExecBlk] in
/-- A command has no block executed, or one, which is committed as far as the writes go. -/
theorem execute_cases [BoostJson] [Pb hiPb.Txs] {B : Type*} (E : IBlkExecutable B)
    (s : ExecutorForCnsss B) (cmd : Cmd) :
    ((s.execute E cmd).2 = [] ∧ (s.execute E cmd).1.state.blk = s.blk) ∨
      ∃ b, (s.execute E cmd).2 = [b] ∧
        (s.execute E cmd).1.state.blk = (E.commitBlk s.blk (E.executeBlk s.blk b)).1 := by
  unfold ExecutorForCnsss.execute ExecutorForCnsss.switchCmd
  split
  · exact .inl ⟨rfl, rfl⟩
  · split_ifs
    · unfold ExecutorForCnsss.handleExecuteBlk
      split
      · exact .inl ⟨rfl, rfl⟩
      · split
        · exact .inl ⟨rfl, rfl⟩
        · next blk _ =>
          refine .inr ⟨blk, ?_⟩
          split
          · next heq => exact ⟨rfl, (congrArg Prod.fst heq).symm⟩
          · next heq => exact ⟨rfl, (congrArg Prod.fst heq).symm⟩
    · refine .inl ⟨rfl, ?_⟩
      unfold ExecutorForCnsss.handleAddTxs
      split
      · rfl
      · dsimp only
        split_ifs <;> rfl
    · exact .inl ⟨rfl, rfl⟩

omit [Keccak] [Pb hiPb.Acn] [Pb hiPb.TxOnBlkInfo] [Pb hiPb.ExecBlk] in
theorem filterTxs_sublist {W : Type*} (e : BlkExecutor W) (ts : List Tx) :
    (e.filterTxs ts).Sublist ts := by
  unfold BlkExecutor.filterTxs
  split
  · exact List.Sublist.refl ts
  · exact List.filter_sublist

/-! ### No transaction is applied twice -/

/-- The invariant: what has been applied is on the disk, and known to the pool. -/
structure Inv (st : StateDB) (s : Life) : Prop where
  nodup : s.hashes.Nodup
  stateDB : s.disk.stateDB = (s.applied.map Prod.snd).foldl StateDB.applyJournal st
  keys : ∀ h ∈ s.hashes, txKey h ∈ s.disk.chainDB
  known : ∃ H out, s.exec.pool.Fresh H out ∧ ∀ h ∈ s.hashes, h ∈ H ∨ h ∈ out

section Run

variable [BoostJson] [Pb hiPb.Txs] {E : ITxExecutable} {v : Option (Tx → Bool)} {maxTxs : ℤ}
variable {st : StateDB} {s : Life}

omit [Pb hiPb.Acn] [Pb hiPb.TxOnBlkInfo] [Pb hiPb.ExecBlk] [BoostJson] [Pb hiPb.Txs] in
theorem inv_firstBoot (maxTxs : ℤ) (st : StateDB) (writes : ℕ) :
    Inv st (firstBoot maxTxs st writes) :=
  ⟨List.nodup_nil, rfl, by simp [Life.hashes, firstBoot], ∅, [], Mempool.fresh_create _ _,
    by simp [Life.hashes, firstBoot]⟩

omit [Pb hiPb.Acn] [Pb hiPb.TxOnBlkInfo] [Pb hiPb.ExecBlk] [BoostJson] [Pb hiPb.Txs] in
/-- The invariant is kept by what applies `new`, some of the transactions with the hashes `hs` that
have just been taken out of the pool, and writes their keys. -/
theorem Inv.append (h : Inv st s) {s' : Life} (new : List (Tx × Journal)) (hs : List Hash256)
    (happlied : s'.applied = s.applied ++ new)
    (hstate : s'.disk.stateDB = (new.map Prod.snd).foldl StateDB.applyJournal s.disk.stateDB)
    (hkeys : ∀ k, (k ∈ s.disk.chainDB ∨ ∃ t ∈ new.map Prod.fst, k = txKey t.hash) →
      k ∈ s'.disk.chainDB)
    (hsub : ((new.map Prod.fst).map Tx.hash).Sublist hs)
    (hpool : ∀ H out, s.exec.pool.Fresh H out → s'.exec.pool.Fresh H (out ++ hs)) : Inv st s' := by
  obtain ⟨H, out, hfresh, hknown⟩ := h.known
  have hfresh' := hpool H out hfresh
  have hhashes : s'.hashes = s.hashes ++ (new.map Prod.fst).map Tx.hash := by
    rw [Life.hashes_eq, Life.hashes_eq, happlied, List.map_append, List.map_append]
  obtain ⟨-, hnew, hdisjoint⟩ := List.nodup_append'.1 hfresh'.nodup
  refine ⟨?_, ?_, ?_, H, _, hfresh', ?_⟩
  · rw [hhashes]
    refine List.nodup_append'.2 ⟨h.nodup, hnew.sublist hsub, fun x hold hin => ?_⟩
    obtain hH | hin' := hknown x hold
    · exact hfresh'.out_new x (List.mem_append_right _ (hsub.subset hin)) hH
    · exact hdisjoint hin' (hsub.subset hin)
  · rw [hstate, happlied, List.map_append, List.foldl_append, ← h.stateDB]
  · rw [hhashes]
    intro x hx
    obtain hold | hin := List.mem_append.1 hx
    · exact hkeys _ (.inl (h.keys x hold))
    · obtain ⟨t, ht, rfl⟩ := List.mem_map.1 hin
      exact hkeys _ (.inr ⟨t, ht, rfl⟩)
  · rw [hhashes]
    intro x hx
    obtain hold | hin := List.mem_append.1 hx
    · exact (hknown x hold).imp_right (List.mem_append_left _)
    · exact .inr (List.mem_append_right _ (hsub.subset hin))

theorem Inv.execute (h : Inv st s) (cmd : Cmd) : Inv st (act E v maxTxs s (.execute cmd)) := by
  have hpool := fun H out (hfresh : s.exec.pool.Fresh H out) =>
    ExecutorForCnsss.fresh_execute (executor E v).blkExecutable hfresh cmd
  obtain ⟨hnone, hblk⟩ | ⟨b, hone, hblk⟩ :=
    execute_cases (executor E v).blkExecutable s.exec cmd
  · have hdisk : (act E v maxTxs s (.execute cmd)).disk = s.disk := congrArg Prod.fst hblk
    refine h.append [] [] ?_ ?_ ?_ (List.Sublist.refl _) ?_
    · simp [act, hnone]
    · rw [hdisk]
      rfl
    · rw [hdisk]
      simp
    · simpa [act, hnone, ExecutorForCnsss.hashes] using hpool
  · have hdisk : (act E v maxTxs s (.execute cmd)).disk =
        ((executor E v).commitBlk s.exec.blk ((executor E v).executeBlk s.exec.blk b)).1.1 :=
      congrArg Prod.fst hblk
    refine h.append (appliedOf s.exec.blk.2 ((executor E v).executeBlk s.exec.blk b))
      (b.txs.map Tx.hash) ?_ ?_ ?_ ?_ ?_
    · simp [act, hone]
    · rw [hdisk, stateDB_commitBlk]
      rfl
    · rw [hdisk, map_fst_appliedOf]
      exact fun k => mem_chainDB_commitBlk _ _ _
    · rw [map_fst_appliedOf]
      exact ((List.take_sublist _ _).trans (filterTxs_sublist _ b.txs)).map Tx.hash
    · simpa [act, hone, ExecutorForCnsss.hashes] using hpool

theorem Inv.boot (h : Inv st s) {writes : ℕ} (hmem : Remembers s (.boot writes)) :
    Inv st (act E v maxTxs s (.boot writes)) := by
  unfold act
  dsimp only
  split
  · exact h
  · next R hR =>
    refine ⟨h.nodup, h.stateDB, h.keys, R.txhs, [], Mempool.fresh_create _ _, fun x hx => .inl ?_⟩
    obtain hnil | hnumber := hmem
    · rw [Life.hashes] at hx
      simp [hnil] at hx
    · exact mem_txhs_of_restore hR hnumber (h.keys x hx)

/-- **No transaction is applied twice.**  Over all starts of a node with the normal executor,
whatever commands arrive and wherever its writes stop, if no start forgets what has been applied:
the transactions applied have pairwise different hashes, and the state database is the first one
with their journals. -/
theorem applied_once (h : ((sys E v maxTxs st).only Remembers).Reach s) :
    s.hashes.Nodup ∧
      s.disk.stateDB = (s.applied.map Prod.snd).foldl StateDB.applyJournal st := by
  have hinv : Inv st s := by
    refine h.invariant (I := Inv st) ?_ fun s l _ hs hl => ?_
    · rintro s ⟨writes, rfl⟩
      exact inv_firstBoot maxTxs st writes
    · cases l with
      | execute cmd =>
        change Inv st (act E v maxTxs s (.execute cmd))
        exact hs.execute cmd
      | boot writes =>
        change Inv st (act E v maxTxs s (.boot writes))
        exact hs.boot hl.2
  exact ⟨hinv.nodup, hinv.stateDB⟩

end Run

/-! ### One transaction, sent twice -/

/-- A transaction to the counter. -/
def oneTx : Tx := .create (makeAddress 1) (makeAddress 2) [] 0 0

/-- The first block, with one transaction, as the consensus sends it. -/
def oneBlk : Json :=
  .object [(ascii "number", .int64 0), (ascii "parentHash", .string (hashToString (.zero 32))),
    (ascii "txhs", .array [.string (hashToString oneTx.hash)])]

/-- A parser that has to parse this block only. -/
@[reducible] def oneJson : BoostJson where
  parse s := if s = JsonText.value oneBlk then some oneBlk else none
  uint64OfDouble _ := none

/-- The commands that have the block executed, before and after a start. -/
def oneTwice [Pb hiPb.Txs] : List Event :=
  let cmds : List Event :=
    [.execute (ExecutorForCnsss.cmdAddTxs :: Tx.serializeFromArray [oneTx]),
      .execute (ExecutorForCnsss.cmdExecuteBlk :: JsonText.value oneBlk)]
  cmds ++ .boot 4 :: cmds

omit [Keccak] [Pb hiPb.Acn] [Pb hiPb.TxOnBlkInfo] [Pb hiPb.ExecBlk] in
/-- The block is committed, with its four writes, and after the start it is refused. -/
theorem applied_once_oneTwice :
    let _ : Keccak := Sponge.keccak
    let _ : HashOrder Bytes32 := .insertion Bytes32
    let _ : Pb hiPb.Acn := Wire.pb hiPb.Acn
    let _ : Pb hiPb.TxOnBlkInfo := Wire.pb hiPb.TxOnBlkInfo
    let _ : Pb hiPb.ExecBlk := Wire.pb hiPb.ExecBlk
    let _ : Pb hiPb.Txs := Wire.pb hiPb.Txs
    let _ : BoostJson := oneJson
    ∃ s : Life, s.hashes = [oneTx.hash] ∧ s.hashes.Nodup ∧
      s.disk.stateDB = (s.applied.map Prod.snd).foldl StateDB.applyJournal ∅ := by
  intro _ _ _ _ _ _ _
  obtain ⟨s, hs, hone⟩ := Sys.exists_reach_of_exec
    (A := (sys BlkExecutor.counter none 10 ∅).only Remembers)
    (P := fun s => s.applied.map Prod.fst = [oneTx]) ⟨4, rfl⟩ oneTwice (by decide +kernel)
  exact ⟨s, by rw [Life.hashes_eq, hone, List.map_singleton], applied_once hs⟩

omit [Keccak] [Pb hiPb.Acn] [Pb hiPb.TxOnBlkInfo] [Pb hiPb.ExecBlk] in
/-- The condition is needed: stopped after two writes, the journal has been applied, but the number
of the block is not there; the start forgets the transaction, and it is applied again. -/
theorem exists_applied_twice :
    let _ : Keccak := Sponge.keccak
    let _ : HashOrder Bytes32 := .insertion Bytes32
    let _ : Pb hiPb.Acn := Wire.pb hiPb.Acn
    let _ : Pb hiPb.TxOnBlkInfo := Wire.pb hiPb.TxOnBlkInfo
    let _ : Pb hiPb.ExecBlk := Wire.pb hiPb.ExecBlk
    let _ : Pb hiPb.Txs := Wire.pb hiPb.Txs
    let _ : BoostJson := oneJson
    ∃ s, (sys BlkExecutor.counter none 10 ∅).Reach s ∧ s.hashes = [oneTx.hash, oneTx.hash] := by
  intro _ _ _ _ _ _ _
  obtain ⟨s, hs, htwo⟩ := Sys.exists_reach_of_exec (A := sys BlkExecutor.counter none 10 ∅)
    (P := fun s => s.applied.map Prod.fst = [oneTx, oneTx]) ⟨2, rfl⟩ oneTwice (by decide +kernel)
  exact ⟨s, hs, by rw [Life.hashes_eq, htwo, List.map_cons, List.map_singleton]⟩

end Reboot

end WeakChain
