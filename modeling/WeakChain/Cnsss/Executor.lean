import WeakChain.Cnsss.Basic
import WeakChain.Core.Blk
import WeakChain.Core.Codec
import WeakChain.Pool.Mempool

/-!
# The executor of block chain commands

`ExecutorForCnsss` reads the first byte of a command: `t` puts the transactions that follow into the
mempool, `b` takes the transactions of a block out of it and has the block executed.  The primary
runs a command before it is sent on, and rewrites it: transactions that were refused are taken out,
and a command that failed becomes empty.

Two results.  **No double spending**: whatever commands arrive, no transaction hash occurs twice in
the blocks handed to the block executor, and none that was known from the start.  **Replication**:
the rewritten `t` command does to the pool of another node what the original did to the pool of the
primary.
-/

namespace WeakChain

/-- `IBlkExecutable`, with states `B`. -/
structure IBlkExecutable (B : Type*) where
  /-- `ExecBlk executeBlk(Blk && b) const`. -/
  executeBlk : B → Blk → ExecBlk
  /-- `bool commitBlk(const ExecBlk & b)`. -/
  commitBlk : B → ExecBlk → B × Bool

/-! ### Blocks of hashes -/

section Json

variable [BoostJson]

/-- `value_to<uint64_t>(v)`. -/
def valueToUInt64 : Json → Option UInt64
  | .uint64 n => some n
  | .int64 n => if 0 ≤ n then some n.toUInt64 else none
  | .double bits => BoostJson.uint64OfDouble bits
  | _ => none

/-- `value_to<string>(v)`. -/
def valueToString : Json → Option Bytes
  | .string s => some s
  | _ => none

/-- `value_to<vector<string>>(v)`. -/
def valueToStrings : Json → Option (List Bytes)
  | .array vs => vs.mapM valueToString
  | _ => none

/-- `BlkForConsensus`: a block with the hashes of its transactions. -/
structure BlkForConsensus where
  /-- Its number. -/
  number : UInt64
  /-- The hash of the block before. -/
  parentHash : Hash256
  /-- The hashes. -/
  txhs : List Hash256
  deriving DecidableEq

namespace BlkForConsensus

/-- `BlkForConsensus::fromJson`, into a fresh one; nothing if it returns `false`. -/
def fromJson (v : Json) : Option BlkForConsensus := do
  let number ← valueToUInt64 (← v.at (ascii "number"))
  let parentHash ← fromHex 32 (← valueToString (← v.at (ascii "parentHash")))
  let txhs ← (← valueToStrings (← v.at (ascii "txhs"))).mapM (fromHex 32)
  return ⟨number, parentHash, txhs⟩

/-- `BlkForConsensus::fromString`. -/
def fromString (s : Bytes) : Option BlkForConsensus := do
  fromJson (← BoostJson.parse s)

end BlkForConsensus

end Json

variable [Keccak]

namespace Mempool

/-- The loop of `toBlk`: pop the transactions with the given hashes, until one is missing. -/
def popAll : Mempool → List Hash256 → Mempool × Option (List Tx)
  | p, [] => (p, some [])
  | p, h :: hs =>
    match p.getTxByHash h with
    | (p', none) => (p', none)
    | (p', some t) =>
      let r := popAll p' hs
      (r.1, r.2.map (t :: ·))

/-- The loop of `handle_ADD_TXS`: add what can be added, and drop the rest. -/
def addTxs : Mempool → List Tx → Mempool × List Tx
  | p, [] => (p, [])
  | p, t :: ts =>
    match p.addTx t with
    | (p', false) => addTxs p' ts
    | (p', true) =>
      let r := addTxs p' ts
      (r.1, t :: r.2)

end Mempool

/-- `BlkForConsensus::toBlk`. -/
def BlkForConsensus.toBlk (b : BlkForConsensus) (p : Mempool) : Mempool × Option Blk :=
  let r := p.popAll b.txhs
  (r.1, r.2.map fun txs => ⟨b.number, b.parentHash, txs⟩)

/-! ### The commands -/

/-- `clear_cmd_and_complain`. -/
def clearCmdAndComplain {X : Type*} (state : X) (reason : Bytes) : ExecOut X := ⟨state, [], reason⟩

/-- `ExecutorForCnsss` together with the block executor behind it. -/
structure ExecutorForCnsss (B : Type*) where
  /-- The state of the block executor. -/
  blk : B
  /-- The mempool. -/
  pool : Mempool

namespace ExecutorForCnsss

/-- `Cmd::EXECUTE_BLK`. -/
def cmdExecuteBlk : UInt8 := 98

/-- `Cmd::ADD_TXS`. -/
def cmdAddTxs : UInt8 := 116

/-- The switch of `execute`: the handler is chosen by the first byte. -/
def switchCmd {α : Type*} (cmd : Cmd) (onEmpty onExecuteBlk onAddTxs : α) (onUnknown : Bytes → α) :
    α :=
  match cmd with
  | [] => onEmpty
  | c :: _ =>
    if c = cmdExecuteBlk then onExecuteBlk
    else if c = cmdAddTxs then onAddTxs
    else
      onUnknown (ascii "Unknown Command Prefix [" ++ [c] ++ ascii "], valid values are: [" ++
        [cmdExecuteBlk] ++ ascii "], [" ++ [cmdAddTxs] ++ ascii "]")

omit [Keccak] in
theorem switchCmd_cmdExecuteBlk {α : Type*} (arg : Bytes) (a b c : α) (d : Bytes → α) :
    switchCmd (cmdExecuteBlk :: arg) a b c d = b :=
  rfl

omit [Keccak] in
theorem switchCmd_cmdAddTxs {α : Type*} (arg : Bytes) (a b c : α) (d : Bytes → α) :
    switchCmd (cmdAddTxs :: arg) a b c d = c :=
  rfl

variable {B : Type*} (E : IBlkExecutable B)

/-- `handle_EXECUTE_BLK`; the list has the blocks it handed to `executeBlk`. -/
def handleExecuteBlk [BoostJson] (s : ExecutorForCnsss B) (cmd : Cmd) :
    ExecOut (ExecutorForCnsss B) × List Blk :=
  match BlkForConsensus.fromString (cmd.drop 1) with
  | none => (clearCmdAndComplain s (ascii "Error parsing BlkForConsensus"), [])
  | some b =>
    match b.toBlk s.pool with
    | (pool, none) =>
      -- what has been popped before the missing transaction is gone
      (clearCmdAndComplain { s with pool := pool }
        (ascii "Failed to turn BlkForConsensus into Blk"), [])
    | (pool, some blk) =>
      match E.commitBlk s.blk (E.executeBlk s.blk blk) with
      | (b', false) => (clearCmdAndComplain ⟨b', pool⟩ (ascii "Error committing Blk"), [blk])
      | (b', true) => (⟨⟨b', pool⟩, cmd, ascii "OK"⟩, [blk])

/-- `handle_ADD_TXS`.  The sizes are compared as the code does, with the old one in an `int`. -/
def handleAddTxs [Pb hiPb.Txs] (s : ExecutorForCnsss B) (cmd : Cmd) :
    ExecOut (ExecutorForCnsss B) :=
  match Tx.parseToArray (cmd.drop 1) with
  | .error _ => clearCmdAndComplain s (ascii "Error parsing Txs")
  | .ok txs =>
    -- refused transactions are taken out of the command before it is sent on
    let r := s.pool.addTxs txs
    let s' : ExecutorForCnsss B := { s with pool := r.1 }
    if r.2 = [] then clearCmdAndComplain s' (ascii "All txs rejected")
    else if r.2.length < toSizeT (int32 txs.length) then
      ⟨s', cmdAddTxs :: Tx.serializeFromArray r.2, ascii "OK"⟩
    else ⟨s', cmd, ascii "OK"⟩

/-- `execute`. -/
def execute [BoostJson] [Pb hiPb.Txs] (s : ExecutorForCnsss B) (cmd : Cmd) :
    ExecOut (ExecutorForCnsss B) × List Blk :=
  switchCmd cmd (⟨s, [], []⟩, []) (s.handleExecuteBlk E cmd) (s.handleAddTxs cmd, [])
    fun reason => (clearCmdAndComplain s reason, [])

/-- The blocks handed to `executeBlk` while a list of commands is executed. -/
def handed [BoostJson] [Pb hiPb.Txs] (s : ExecutorForCnsss B) : List Cmd → List Blk
  | [] => []
  | cmd :: cmds =>
    (s.execute E cmd).2 ++ handed (s.execute E cmd).1.state cmds

end ExecutorForCnsss

/-! ### No double spending -/

namespace Mempool

variable {H : Finset Hash256} {out : List Hash256} {p : Mempool}

/-- The books of double spending: `out` are the hashes handed out so far, and `H` those known from
the start. -/
structure Fresh (H : Finset Hash256) (out : List Hash256) (p : Mempool) : Prop where
  known : H ⊆ p.hs
  seen : ∀ h ∈ out, h ∈ p.hs
  nodup : out.Nodup
  gone : ∀ h ∈ out, h ∉ p.txs.map Tx.hash
  out_new : ∀ h ∈ out, h ∉ H
  pool_new : ∀ h ∈ p.txs.map Tx.hash, h ∉ H

theorem fresh_create (H : Finset Hash256) (m : ℤ) : (create H m).Fresh H [] :=
  ⟨Finset.Subset.refl H, by simp, List.nodup_nil, by simp, by simp, by simp [create]⟩

theorem Fresh.addTx (h : p.Fresh H out) (t : Tx) : (p.addTx t).1.Fresh H out := by
  by_cases ht : t.hash ∈ p.hs
  · rw [addTx_of_mem ht]
    exact h
  · obtain ⟨-, hhs, hperm⟩ := addTx_of_notMem ht
    have hmem : ∀ x, x ∈ (p.addTx t).1.txs.map Tx.hash ↔ x = t.hash ∨ x ∈ p.txs.map Tx.hash :=
      fun x => by rw [(hperm.map Tx.hash).mem_iff, List.map_cons, List.mem_cons]
    refine ⟨?_, ?_, h.nodup, ?_, h.out_new, ?_⟩
    · rw [hhs]
      exact h.known.trans (Finset.subset_insert _ _)
    · intro x hx
      rw [hhs]
      exact Finset.mem_insert_of_mem (h.seen x hx)
    · intro x hx hm
      rcases (hmem x).1 hm with rfl | hm
      · exact ht (h.seen _ hx)
      · exact h.gone x hx hm
    · intro x hx
      rcases (hmem x).1 hx with rfl | hx
      · exact fun hH => ht (h.known hH)
      · exact h.pool_new x hx

theorem Fresh.addTxs (h : p.Fresh H out) (ts : List Tx) : (p.addTxs ts).1.Fresh H out := by
  induction ts generalizing p with
  | nil => exact h
  | cons t ts ih =>
    have ht := h.addTx t
    rw [Mempool.addTxs]
    split
    · next p' heq =>
      rw [heq] at ht
      exact ih ht
    · next p' heq =>
      rw [heq] at ht
      exact ih ht

theorem Fresh.getTxByHash (h : p.Fresh H out) {x : Hash256} {t : Tx}
    (ht : (p.getTxByHash x).2 = some t) :
    (p.getTxByHash x).1.Fresh H (out ++ [t.hash]) := by
  obtain ⟨rfl, hmem, hhs, hsub, hgone⟩ := getTxByHash_of_some ht
  have htm : t.hash ∈ p.txs.map Tx.hash := List.mem_map_of_mem hmem
  refine ⟨hhs ▸ h.known, ?_, ?_, ?_, ?_, ?_⟩
  · intro y hy
    rw [hhs]
    rcases List.mem_append.1 hy with hy | hy
    · exact h.seen y hy
    · rw [List.mem_singleton.1 hy]
      exact p.hash_mem t hmem
  · rw [List.nodup_append]
    refine ⟨h.nodup, List.nodup_singleton _, ?_⟩
    intro y hy z hz hyz
    rw [List.mem_singleton.1 hz] at hyz
    exact h.gone y hy (hyz ▸ htm)
  · intro y hy hm
    rcases List.mem_append.1 hy with hy | hy
    · exact h.gone y hy (List.map_subset _ hsub hm)
    · rw [List.mem_singleton.1 hy] at hm
      exact hgone hm
  · intro y hy
    rcases List.mem_append.1 hy with hy | hy
    · exact h.out_new y hy
    · rw [List.mem_singleton.1 hy]
      exact h.pool_new _ htm
  · intro y hy
    exact h.pool_new y (List.map_subset _ hsub hy)

theorem Fresh.of_append {new : List Hash256} (h : p.Fresh H (out ++ new)) : p.Fresh H out :=
  ⟨h.known, fun x hx => h.seen x (List.mem_append_left _ hx), h.nodup.of_append_left,
    fun x hx => h.gone x (List.mem_append_left _ hx),
    fun x hx => h.out_new x (List.mem_append_left _ hx), h.pool_new⟩

/-- Popping keeps the books, whether all the transactions are there or not. -/
theorem Fresh.popAll (h : p.Fresh H out) (hs : List Hash256) :
    (p.popAll hs).1.Fresh H (out ++ ((p.popAll hs).2.getD []).map Tx.hash) := by
  induction hs generalizing p out with
  | nil => simpa [Mempool.popAll] using h
  | cons x hs ih =>
    rw [Mempool.popAll]
    split
    · next p' heq =>
      -- nothing was found, so nothing was popped
      have hp : p' = p := by
        rw [← getTxByHash_of_none (p := p) (h := x) (by rw [heq]), heq]
      simpa [hp] using h
    · next p' t heq =>
      -- the first transaction is handed out, and the rest follows by induction
      have ht := h.getTxByHash (x := x) (t := t) (by rw [heq])
      rw [heq] at ht
      have hrec := ih ht
      cases hr : (p'.popAll hs).2 with
      | none =>
        rw [hr] at hrec
        simpa [hr] using Fresh.of_append (by simpa using hrec)
      | some ts => simpa [hr, List.append_assoc] using hrec

end Mempool

namespace ExecutorForCnsss

variable {B : Type*} (E : IBlkExecutable B)

/-- The hashes of the transactions of a list of blocks. -/
def hashes (bs : List Blk) : List Hash256 := bs.flatMap fun b => b.txs.map Tx.hash

variable [BoostJson] {H : Finset Hash256} {out : List Hash256} {s : ExecutorForCnsss B}

theorem fresh_handleExecuteBlk (h : s.pool.Fresh H out) (cmd : Cmd) :
    (s.handleExecuteBlk E cmd).1.state.pool.Fresh H
      (out ++ hashes (s.handleExecuteBlk E cmd).2) := by
  unfold handleExecuteBlk
  split
  · simpa [clearCmdAndComplain, hashes] using h
  · next b _ =>
    have hpop := h.popAll b.txhs
    unfold BlkForConsensus.toBlk
    cases hr : (s.pool.popAll b.txhs).2 with
    | none => simpa [hr, clearCmdAndComplain, hashes] using hpop
    | some txs =>
      rw [hr] at hpop
      simp only [hr, Option.map_some]
      split
      · simpa [clearCmdAndComplain, hashes] using hpop
      · simpa [hashes] using hpop

variable [Pb hiPb.Txs]

omit [BoostJson] in
theorem fresh_handleAddTxs (h : s.pool.Fresh H out) (cmd : Cmd) :
    (s.handleAddTxs cmd).state.pool.Fresh H out := by
  unfold handleAddTxs
  split
  · exact h
  · next txs _ =>
    have hadd := h.addTxs txs
    dsimp only
    split_ifs
    · exact hadd
    · exact hadd
    · exact hadd

/-- **One command** keeps the books. -/
theorem fresh_execute (h : s.pool.Fresh H out) (cmd : Cmd) :
    (s.execute E cmd).1.state.pool.Fresh H (out ++ hashes (s.execute E cmd).2) := by
  unfold execute switchCmd
  split
  · simpa [hashes] using h
  · split_ifs
    · exact fresh_handleExecuteBlk E h _
    · simpa [hashes] using fresh_handleAddTxs h _
    · simpa [clearCmdAndComplain, hashes] using h

/-- **A sequence of commands** keeps the books. -/
theorem fresh_handed (h : s.pool.Fresh H out) (cmds : List Cmd) :
    (out ++ hashes (s.handed E cmds)).Nodup ∧
      ∀ x ∈ out ++ hashes (s.handed E cmds), x ∉ H := by
  induction cmds generalizing s out with
  | nil => simpa [handed, hashes] using ⟨h.nodup, h.out_new⟩
  | cons cmd cmds ih =>
    have := ih (fresh_execute E h cmd)
    simpa [handed, hashes, List.append_assoc] using this

/-- **No double spending.**  Over a mempool that starts with the hashes `H` and any block executor,
for every sequence of commands: the hashes of the transactions in the blocks handed to `executeBlk`
are pairwise distinct, and none of them is in `H`. -/
theorem hashes_handed_nodup (b : B) (H : Finset Hash256) (m : ℤ) (cmds : List Cmd) :
    (hashes (handed E ⟨b, .create H m⟩ cmds)).Nodup ∧
      ∀ h ∈ hashes (handed E ⟨b, .create H m⟩ cmds), h ∉ H := by
  simpa using fresh_handed E (s := ⟨b, .create H m⟩) (Mempool.fresh_create H m) cmds

end ExecutorForCnsss

/-! ### Replication -/

namespace Mempool

variable {p q : Mempool}

theorem addTxs_cons_of_mem {t : Tx} (h : t.hash ∈ p.hs) (ts : List Tx) :
    p.addTxs (t :: ts) = p.addTxs ts := by
  rw [addTxs, addTx_of_mem h]

theorem addTxs_cons_of_notMem {t : Tx} (h : t.hash ∉ p.hs) (ts : List Tx) :
    p.addTxs (t :: ts) =
      (((p.addTx t).1.addTxs ts).1, t :: ((p.addTx t).1.addTxs ts).2) := by
  rw [addTxs, show p.addTx t = ((p.addTx t).1, true) from Prod.ext rfl (addTx_of_notMem h).1]

theorem Same.addTxs (h : p.Same q) (ts : List Tx) :
    (p.addTxs ts).1.Same (q.addTxs ts).1 ∧ (p.addTxs ts).2 = (q.addTxs ts).2 := by
  induction ts generalizing p q with
  | nil => exact ⟨h, Eq.refl _⟩
  | cons t ts ih =>
    by_cases ht : t.hash ∈ p.hs
    · rw [addTxs_cons_of_mem ht, addTxs_cons_of_mem (h.hs ▸ ht)]
      exact ih h
    · rw [addTxs_cons_of_notMem ht, addTxs_cons_of_notMem (h.hs ▸ ht)]
      obtain ⟨h1, h2⟩ := ih (h.addTx t).1
      exact ⟨h1, by rw [h2]⟩

/-- Adding what was accepted does the same as adding everything. -/
theorem addTxs_addTxs (p : Mempool) (ts : List Tx) : p.addTxs (p.addTxs ts).2 = p.addTxs ts := by
  induction ts generalizing p with
  | nil => rfl
  | cons t ts ih =>
    by_cases ht : t.hash ∈ p.hs
    · rw [addTxs_cons_of_mem ht]
      exact ih p
    · rw [addTxs_cons_of_notMem ht, addTxs_cons_of_notMem ht, ih (p.addTx t).1]

theorem addTxs_sublist (p : Mempool) (ts : List Tx) : (p.addTxs ts).2.Sublist ts := by
  induction ts generalizing p with
  | nil => exact List.Sublist.refl _
  | cons t ts ih =>
    by_cases ht : t.hash ∈ p.hs
    · rw [addTxs_cons_of_mem ht]
      exact (ih p).cons t
    · rw [addTxs_cons_of_notMem ht]
      exact (ih _).cons_cons t

/-- If nothing is accepted, nothing changes. -/
theorem addTxs_of_nil {ts : List Tx} (h : (p.addTxs ts).2 = []) : (p.addTxs ts).1 = p := by
  induction ts generalizing p with
  | nil => rfl
  | cons t ts ih =>
    by_cases ht : t.hash ∈ p.hs
    · rw [addTxs_cons_of_mem ht] at h ⊢
      exact ih h
    · rw [addTxs_cons_of_notMem ht] at h
      cases h

end Mempool

namespace ExecutorForCnsss

variable {B B' : Type*} [Pb hiPb.Txs]

/-- What `handle_ADD_TXS` does to the pool. -/
theorem pool_handleAddTxs (s : ExecutorForCnsss B) (cmd : Cmd) :
    (s.handleAddTxs cmd).state.pool =
      match Tx.parseToArray (cmd.drop 1) with
      | .error _ => s.pool
      | .ok txs => (s.pool.addTxs txs).1 := by
  unfold handleAddTxs
  cases Tx.parseToArray (cmd.drop 1) with
  | error e => rfl
  | ok txs =>
    dsimp only
    split_ifs <;> rfl

/-- What `handle_ADD_TXS` does to the command: it empties it, and then the pool is as before; or it
leaves it alone; or it takes out what was refused. -/
theorem cmd_handleAddTxs (s : ExecutorForCnsss B) (cmd : Cmd) :
    ((s.handleAddTxs cmd).cmd = [] ∧ (s.handleAddTxs cmd).state.pool = s.pool) ∨
      (s.handleAddTxs cmd).cmd = cmd ∨
      ∃ txs, Tx.parseToArray (cmd.drop 1) = .ok txs ∧
        (s.handleAddTxs cmd).cmd = cmdAddTxs :: Tx.serializeFromArray (s.pool.addTxs txs).2 := by
  unfold handleAddTxs
  cases Tx.parseToArray (cmd.drop 1) with
  | error e => exact .inl ⟨rfl, rfl⟩
  | ok txs =>
    dsimp only
    split_ifs with hnil
    · exact .inl ⟨rfl, Mempool.addTxs_of_nil hnil⟩
    · exact .inr (.inr ⟨txs, rfl, rfl⟩)
    · exact .inr (.inl rfl)

theorem execute_cmdAddTxs [BoostJson] (E : IBlkExecutable B) (s : ExecutorForCnsss B)
    (arg : Bytes) : (s.execute E (cmdAddTxs :: arg)).1 = s.handleAddTxs (cmdAddTxs :: arg) := by
  rw [execute, switchCmd_cmdAddTxs]

/-- **Replication of `ADD_TXS`.**  Two nodes have the same pool.  If the primary executes a command
that starts with the byte of `ADD_TXS` and another node then executes what the command has become,
the two have the same pool again: whether transactions were refused or not, and also if the payload
cannot be parsed. -/
theorem pool_same_of_addTxs [BoostJson] (hpb : Pb.ReadsBack hiPb.Txs) (E : IBlkExecutable B)
    (E' : IBlkExecutable B') (s : ExecutorForCnsss B) (s' : ExecutorForCnsss B')
    (h : s.pool.Same s'.pool) (arg : Bytes) :
    (s.execute E (cmdAddTxs :: arg)).1.state.pool.Same
      (s'.execute E' (s.execute E (cmdAddTxs :: arg)).1.cmd).1.state.pool := by
  rw [execute_cmdAddTxs]
  rcases cmd_handleAddTxs s (cmdAddTxs :: arg) with ⟨hcmd, hpool⟩ | hcmd | ⟨txs, htxs, hcmd⟩
  · rw [hcmd, hpool]
    exact h
  · rw [hcmd, execute_cmdAddTxs, pool_handleAddTxs, pool_handleAddTxs]
    cases Tx.parseToArray ((cmdAddTxs :: arg).drop 1) with
    | error e => exact h
    | ok txs => exact (h.addTxs txs).1
  · rw [hcmd, execute_cmdAddTxs, pool_handleAddTxs, pool_handleAddTxs, htxs]
    -- the other node reads exactly the transactions that were accepted
    have hkept : ∀ t ∈ (s.pool.addTxs txs).2, t.FromPkPem := fun t ht =>
      Tx.fromPkPem_of_mapM htxs t ((s.pool.addTxs_sublist txs).subset ht)
    rw [List.drop_one, List.tail_cons, Tx.parseToArray_serializeFromArray hpb hkept]
    have hsame := (h.addTxs (s.pool.addTxs txs).2).1
    rwa [Mempool.addTxs_addTxs] at hsame

/-- Nothing is executed, so every transaction fails. -/
def idleBlkExecutor : IBlkExecutable Unit where
  executeBlk _ b := ⟨b, b.txs.map fun _ => [], b.txs.map fun t => .failed t.type, by simp, by simp⟩
  commitBlk _ _ := ((), true)

omit [Keccak] [Pb hiPb.Txs] in
/-- A transaction that comes twice: the primary takes the second one out of the command. -/
theorem pool_same_of_addTxs_twice :
    let _ : Keccak := Sponge.keccak
    let _ : Pb hiPb.Txs := Wire.pb hiPb.Txs
    let _ : BoostJson := ⟨fun _ => none, fun _ => none⟩
    let s : ExecutorForCnsss Unit := ⟨(), .create ∅ 2⟩
    let t := Tx.create (makeAddress 1) (makeAddress 2) [] 7 0
    let arg := Tx.serializeFromArray [t, t]
    (s.execute idleBlkExecutor (cmdAddTxs :: arg)).1.cmd =
        cmdAddTxs :: Tx.serializeFromArray [t] ∧
      (s.execute idleBlkExecutor (cmdAddTxs :: arg)).1.state.pool.Same
        (s.execute idleBlkExecutor
          (s.execute idleBlkExecutor (cmdAddTxs :: arg)).1.cmd).1.state.pool := by
  intro _ _ _ s t arg
  refine ⟨by decide +kernel, ?_⟩
  have hpb : Pb.ReadsBack hiPb.Txs := Wire.readsBack hiPb.Txs
  exact pool_same_of_addTxs hpb idleBlkExecutor idleBlkExecutor s s .rfl arg

end ExecutorForCnsss

end WeakChain
