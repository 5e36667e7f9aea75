import WeakChain.Exec.BlkExecutor
import WeakChain.Lib.Run

/-!
# What becomes of accepted transactions

A transaction that `addTx` has accepted waits in the pool until a block with its hash is executed.
`toBlk` pops the transactions of a block one by one, and nothing puts them back: if one of the
hashes is not there, or the block cannot be committed, those that have been popped are gone, and
since their hashes stay known they can never be added again.  The command is emptied then, so the
other nodes keep theirs.

`Custody.kept_of_reach` : nothing gets lost as long as every block names distinct transactions of
the pool and is committed, or pops nothing at all.
-/

namespace WeakChain

variable [Keccak]

namespace Mempool

variable {p : Mempool}

/-- The transactions with the given hashes, as far as they are there. -/
def lookup (p : Mempool) (hs : List Hash256) : List Tx :=
  hs.filterMap fun h => p.txs.find? fun t => t.hash = h

/-- The pool has a transaction with this hash. -/
def Has (p : Mempool) (h : Hash256) : Prop := h ∈ p.txs.map Tx.hash

instance (p : Mempool) (h : Hash256) : Decidable (p.Has h) :=
  inferInstanceAs (Decidable (h ∈ p.txs.map Tx.hash))

theorem find?_eq_none_iff {h : Hash256} : (p.txs.find? fun t => t.hash = h) = none ↔ ¬p.Has h := by
  simp [Has]

theorem getTxByHash_of_not_has {h : Hash256} (hh : ¬p.Has h) : p.getTxByHash h = (p, none) := by
  rw [getTxByHash, find?_eq_none_iff.2 hh]

/-- Popping a transaction that is there. -/
theorem getTxByHash_of_has {h : Hash256} (hh : p.Has h) :
    ∃ t p', p.getTxByHash h = (p', some t) ∧ (p.txs.find? fun t => t.hash = h) = some t ∧
      p'.txs = p.txs.filter fun t => t.hash ≠ h := by
  cases hf : p.txs.find? fun t => t.hash = h with
  | none => exact absurd hh (find?_eq_none_iff.1 hf)
  | some t =>
    rw [getTxByHash, hf]
    exact ⟨t, _, rfl, rfl, rfl⟩

theorem has_filter {p' : Mempool} {h h' : Hash256}
    (hp : p'.txs = p.txs.filter fun t => t.hash ≠ h) : p'.Has h' ↔ p.Has h' ∧ h' ≠ h := by
  simp only [Has, hp, List.mem_map, List.mem_filter, decide_eq_true_eq]
  constructor
  · rintro ⟨t, ⟨ht, hne⟩, rfl⟩
    exact ⟨⟨t, ht, rfl⟩, hne⟩
  · rintro ⟨⟨t, ht, rfl⟩, hne⟩
    exact ⟨t, ⟨ht, hne⟩, rfl⟩

theorem lookup_filter {p' : Mempool} {h : Hash256} {hs : List Hash256}
    (hp : p'.txs = p.txs.filter fun t => t.hash ≠ h) (hh : h ∉ hs) :
    p'.lookup hs = p.lookup hs := by
  refine List.filterMap_congr fun h' hh' => ?_
  have hne : h' ≠ h := fun heq => hh (heq ▸ hh')
  rw [hp, List.find?_filter]
  congr 1
  funext t
  by_cases ht : t.hash = h' <;> simp [ht, hne]

/-- **Popping distinct transactions that are all there.** -/
theorem popAll_of_all {hs : List Hash256} (hnodup : hs.Nodup) (hall : ∀ h ∈ hs, p.Has h) :
    (p.popAll hs).2 = some (p.lookup hs) ∧
      ∀ t ∈ p.txs, t ∈ (p.popAll hs).1.txs ∨ t ∈ p.lookup hs := by
  induction hs generalizing p with
  | nil => exact ⟨rfl, fun t ht => .inl ht⟩
  | cons h hs ih =>
    rw [List.nodup_cons] at hnodup
    obtain ⟨t, p', hpop, hfind, hp'⟩ := getTxByHash_of_has (hall h List.mem_cons_self)
    have hall' : ∀ h' ∈ hs, p'.Has h' := fun h' hh' =>
      (has_filter hp').2 ⟨hall h' (List.mem_cons_of_mem _ hh'), fun heq => hnodup.1 (heq ▸ hh')⟩
    obtain ⟨hrest, hkeep⟩ := ih hnodup.2 hall'
    have hlookup : p.lookup (h :: hs) = t :: p.lookup hs := by
      rw [lookup, List.filterMap_cons, hfind]
      rfl
    rw [lookup_filter hp' hnodup.1] at hrest hkeep
    rw [popAll, hpop, hlookup]
    refine ⟨by simp [hrest], fun u hu => ?_⟩
    by_cases huh : u.hash = h
    · -- it is the one that has been popped
      have hth : t.hash = h := by simpa using List.find?_some hfind
      have heq : u = t :=
        List.inj_on_of_nodup_map p.nodup hu (List.mem_of_find?_eq_some hfind) (huh.trans hth.symm)
      exact .inr (heq ▸ List.mem_cons_self)
    · have hu' : u ∈ p'.txs := by
        rw [hp']
        exact List.mem_filter.2 ⟨hu, by simpa using huh⟩
      exact (hkeep u hu').imp_right (List.mem_cons_of_mem _)

/-- What `popAll` returns when it finds everything. -/
theorem all_of_popAll {hs : List Hash256} {ts : List Tx} (h : (p.popAll hs).2 = some ts) :
    hs.Nodup ∧ (∀ h ∈ hs, p.Has h) ∧ ts = p.lookup hs := by
  suffices hs.Nodup ∧ ∀ h ∈ hs, p.Has h from
    ⟨this.1, this.2, Option.some.inj (h.symm.trans (popAll_of_all this.1 this.2).1)⟩
  induction hs generalizing p ts with
  | nil => exact ⟨List.nodup_nil, by simp⟩
  | cons x hs ih =>
    by_cases hx : p.Has x
    · obtain ⟨t, p', hpop, -, hp'⟩ := getTxByHash_of_has hx
      rw [popAll, hpop] at h
      obtain ⟨ts', hts', -⟩ := Option.map_eq_some_iff.1 h
      obtain ⟨hnodup, hall⟩ := ih hts'
      refine ⟨List.nodup_cons.2 ⟨fun hmem => ((has_filter hp').1 (hall x hmem)).2 rfl, hnodup⟩, ?_⟩
      intro y hy
      rcases List.mem_cons.1 hy with rfl | hy
      · exact hx
      · exact ((has_filter hp').1 (hall y hy)).1
    · rw [popAll, getTxByHash_of_not_has hx] at h
      cases h

/-- Popping only takes away. -/
theorem has_of_has_popAll {hs : List Hash256} {h : Hash256} (hh : (p.popAll hs).1.Has h) :
    p.Has h := by
  induction hs generalizing p with
  | nil => exact hh
  | cons x hs ih =>
    by_cases hx : p.Has x
    · obtain ⟨t, p', hpop, -, hp'⟩ := getTxByHash_of_has hx
      rw [popAll, hpop] at hh
      exact ((has_filter hp').1 (ih hh)).1
    · rwa [popAll, getTxByHash_of_not_has hx] at hh

theorem not_has_popAll_head {x : Hash256} (hs : List Hash256) (hx : p.Has x) :
    ¬(p.popAll (x :: hs)).1.Has x := by
  obtain ⟨t, p', hpop, -, hp'⟩ := getTxByHash_of_has hx
  rw [popAll, hpop]
  exact fun hh => ((has_filter hp').1 (has_of_has_popAll hh)).2 rfl

theorem mem_addTx {t u : Tx} (hu : u ∈ p.txs) : u ∈ (p.addTx t).1.txs := by
  by_cases ht : t.hash ∈ p.hs
  · rwa [addTx_of_mem ht]
  · exact (addTx_of_notMem ht).2.2.mem_iff.2 (List.mem_cons_of_mem _ hu)

/-- Adding keeps what is there, and what is accepted is there afterwards. -/
theorem mem_addTxs {ts : List Tx} {u : Tx} (hu : u ∈ p.txs ∨ u ∈ (p.addTxs ts).2) :
    u ∈ (p.addTxs ts).1.txs := by
  induction ts generalizing p with
  | nil => exact hu.resolve_right List.not_mem_nil
  | cons t ts ih =>
    by_cases ht : t.hash ∈ p.hs
    · rw [addTxs_cons_of_mem ht] at hu ⊢
      exact ih hu
    · rw [addTxs_cons_of_notMem ht] at hu ⊢
      rcases hu with hu | hu
      · exact ih (.inl (mem_addTx hu))
      · rcases List.mem_cons.1 hu with rfl | hu
        · exact ih (.inl ((addTx_of_notMem ht).2.2.mem_iff.2 List.mem_cons_self))
        · exact ih (.inr hu)

end Mempool

namespace ExecutorForCnsss

variable {W : Type*} (e : BlkExecutor W) (s : ExecutorForCnsss W) [Pb hiPb.TxOnBlkInfo]
  [Pb hiPb.ExecBlk]

/-- The block that `b` stands for, if the pool has all of it. -/
def blkOf (b : BlkForConsensus) : Blk := ⟨b.number, b.parentHash, s.pool.lookup b.txhs⟩

/-- A block can be served if nothing of it is popped, or all of it is and the block is committed. -/
def Serves (b : BlkForConsensus) : Prop :=
  (∀ h ∈ b.txhs.head?, ¬s.pool.Has h) ∨
    b.txhs.Nodup ∧ (∀ h ∈ b.txhs, s.pool.Has h) ∧
      (e.commitBlk s.blk (e.executeBlk s.blk (s.blkOf b))).2 = true

instance (b : BlkForConsensus) : Decidable (s.Serves e b) :=
  inferInstanceAs (Decidable (_ ∨ _ ∧ _ ∧ _))

/-- The block of an `EXECUTE_BLK` can be served. -/
def Servable [BoostJson] (cmd : Cmd) : Prop :=
  cmd.head? = some cmdExecuteBlk → ∀ b ∈ BlkForConsensus.fromString (cmd.drop 1), s.Serves e b

instance [BoostJson] (cmd : Cmd) : Decidable (s.Servable e cmd) :=
  inferInstanceAs (Decidable (_ → ∀ b ∈ BlkForConsensus.fromString (cmd.drop 1), s.Serves e b))

variable {e s}

omit [Pb hiPb.TxOnBlkInfo] [Pb hiPb.ExecBlk] in
/-- Nothing is popped if the first transaction is missing. -/
theorem toBlk_of_head {b : BlkForConsensus} (h : ∀ x ∈ b.txhs.head?, ¬s.pool.Has x) :
    (b.toBlk s.pool).1 = s.pool ∧ ∀ blk ∈ (b.toBlk s.pool).2, blk.txs = [] := by
  rw [BlkForConsensus.toBlk]
  cases hs : b.txhs with
  | nil => simp [Mempool.popAll]
  | cons x xs =>
    rw [hs] at h
    rw [Mempool.popAll, Mempool.getTxByHash_of_not_has (h x rfl)]
    simp

omit [Pb hiPb.TxOnBlkInfo] [Pb hiPb.ExecBlk] in
theorem toBlk_of_all {b : BlkForConsensus} (hnodup : b.txhs.Nodup)
    (hall : ∀ h ∈ b.txhs, s.pool.Has h) : (b.toBlk s.pool).2 = some (s.blkOf b) := by
  rw [BlkForConsensus.toBlk, (Mempool.popAll_of_all hnodup hall).1]
  rfl

variable [BoostJson]

/-- What `handle_EXECUTE_BLK` does with a block that can be served: it pops nothing, or it commits
what it has popped. -/
theorem handleExecuteBlk_of_serves {cmd : Cmd} {b : BlkForConsensus}
    (hb : BlkForConsensus.fromString (cmd.drop 1) = some b) (h : s.Serves e b) :
    let out := s.handleExecuteBlk e.blkExecutable cmd
    (out.1.state.pool = s.pool ∧ ∀ blk ∈ out.2, blk.txs = []) ∨
      out.1.reply = ascii "OK" ∧ out.2 = [s.blkOf b] ∧
        (e.commitBlk s.blk (e.executeBlk s.blk (s.blkOf b))).2 = true ∧
        ∀ t ∈ s.pool.txs, t ∈ out.1.state.pool.txs ∨ t ∈ (s.blkOf b).txs := by
  intro out
  rcases h with hfirst | ⟨hnodup, hall, hcommit⟩
  · obtain ⟨hpool, htxs⟩ := toBlk_of_head hfirst
    refine .inl ?_
    simp only [out, handleExecuteBlk, hb]
    split
    · next pool heq =>
      rw [heq] at hpool
      exact ⟨hpool, by simp⟩
    · next pool blk heq =>
      rw [heq] at hpool htxs
      split
      · exact ⟨hpool, by simpa using htxs⟩
      · exact ⟨hpool, by simpa using htxs⟩
  · have hblk := toBlk_of_all hnodup hall
    have hkeep := (Mempool.popAll_of_all hnodup hall).2
    refine .inr ?_
    simp only [out, handleExecuteBlk, hb]
    split
    · next pool heq =>
      rw [heq] at hblk
      cases hblk
    · next pool blk heq =>
      have hpool : pool = (s.pool.popAll b.txhs).1 := (congrArg Prod.fst heq).symm
      rw [heq] at hblk
      obtain rfl := Option.some.inj hblk
      split
      · next b' hfail => exact absurd (hcommit.symm.trans (congrArg Prod.snd hfail)) (by simp)
      · exact ⟨rfl, rfl, hcommit, hpool ▸ hkeep⟩

theorem pool_handleExecuteBlk {cmd : Cmd} {b : BlkForConsensus}
    (hb : BlkForConsensus.fromString (cmd.drop 1) = some b) :
    (s.handleExecuteBlk e.blkExecutable cmd).1.state.pool = (s.pool.popAll b.txhs).1 := by
  simp only [handleExecuteBlk, hb]
  split
  · next pool heq => exact (congrArg Prod.fst heq).symm
  · next pool blk heq =>
    have hpool : pool = (s.pool.popAll b.txhs).1 := (congrArg Prod.fst heq).symm
    split
    · exact hpool
    · exact hpool

/-- A block that succeeds has popped distinct transactions of the pool, and has been committed. -/
theorem of_reply_ok {cmd : Cmd} {b : BlkForConsensus}
    (hb : BlkForConsensus.fromString (cmd.drop 1) = some b)
    (hok : (s.handleExecuteBlk e.blkExecutable cmd).1.reply = ascii "OK") :
    b.txhs.Nodup ∧ (∀ h ∈ b.txhs, s.pool.Has h) ∧
      (e.commitBlk s.blk (e.executeBlk s.blk (s.blkOf b))).2 = true := by
  have hpop : ascii "Failed to turn BlkForConsensus into Blk" ≠ ascii "OK" := by decide
  have hcommit : ascii "Error committing Blk" ≠ ascii "OK" := by decide
  simp only [handleExecuteBlk, hb] at hok
  split at hok
  · exact absurd hok hpop
  · next pool blk heq =>
    obtain ⟨txs, htxs, rfl⟩ := Option.map_eq_some_iff.1 (congrArg Prod.snd heq)
    obtain ⟨hnodup, hall, rfl⟩ := Mempool.all_of_popAll htxs
    split at hok
    · exact absurd hok hcommit
    · next b' hcommit => exact ⟨hnodup, hall, congrArg Prod.snd hcommit⟩

/-- **Exactly then** a block that fails leaves the pool as it was. -/
theorem pool_eq_of_error_iff {cmd : Cmd} {b : BlkForConsensus}
    (hb : BlkForConsensus.fromString (cmd.drop 1) = some b) :
    let out := (s.handleExecuteBlk e.blkExecutable cmd).1
    (out.reply ≠ ascii "OK" → out.state.pool = s.pool) ↔ s.Serves e b := by
  intro out
  constructor
  · intro h
    by_contra hserves
    rw [Serves, not_or] at hserves
    obtain ⟨hhead, hall⟩ := hserves
    push Not at hhead
    obtain ⟨x, hx, hhas⟩ := hhead
    obtain ⟨xs, hxs⟩ : ∃ xs, b.txhs = x :: xs := List.head?_eq_some_iff.1 hx
    -- the first transaction is gone, whatever happens next
    have hgone : out.state.pool ≠ s.pool := by
      intro heq
      refine Mempool.not_has_popAll_head xs hhas ?_
      have hpool : out.state.pool = (s.pool.popAll b.txhs).1 := pool_handleExecuteBlk hb
      rwa [← hxs, ← hpool, heq]
    have hok : out.reply = ascii "OK" := by_contra fun hne => hgone (h hne)
    exact hall (of_reply_ok hb hok)
  · intro h hne
    rcases handleExecuteBlk_of_serves hb h with ⟨hpool, -⟩ | ⟨hok, -⟩
    · exact hpool
    · exact absurd hok hne

end ExecutorForCnsss

/-- The executor, with the books of its transactions. -/
structure Custody (W : Type*) where
  exe : ExecutorForCnsss W
  /-- The transactions for which `addTx` has returned `true`. -/
  accepted : List Tx := []
  /-- Those of the blocks that have been committed. -/
  committed : List Tx := []
  /-- Those that the verifier has dropped from a block. -/
  dropped : List Tx := []

namespace Custody

open ExecutorForCnsss

variable {W : Type*} (e : BlkExecutor W) [Pb hiPb.TxOnBlkInfo] [Pb hiPb.ExecBlk] [Pb hiPb.Txs]
  [BoostJson]

omit [Pb hiPb.TxOnBlkInfo] [Pb hiPb.ExecBlk] [BoostJson] in
/-- The transactions of a command for which `addTx` returns `true`. -/
def acceptedBy (s : ExecutorForCnsss W) (cmd : Cmd) : List Tx :=
  switchCmd cmd [] []
    (match Tx.parseToArray (cmd.drop 1) with
      | .error _ => []
      | .ok txs => (s.pool.addTxs txs).2)
    fun _ => []

/-- The transactions of a block that are committed. -/
def committedBy (w : W) (b : Blk) : List Tx :=
  if (e.commitBlk w (e.executeBlk w b)).2 then (e.executeBlk w b).txs else []

/-- A command is executed. -/
def act (s : Custody W) (cmd : Cmd) : Custody W :=
  let out := s.exe.execute e.blkExecutable cmd
  { exe := out.1.state
    accepted := s.accepted ++ acceptedBy s.exe cmd
    committed := s.committed ++ out.2.flatMap (committedBy e s.exe.blk)
    dropped := s.dropped ++ out.2.flatMap fun b => b.txs.filter (e.txVerifier.any fun v => !v ·) }

/-- The runs of an executor over a mempool. -/
def sys : Sys (Custody W) Cmd where
  init s := s.accepted = []
  enabled _ _ := True
  act s cmd := s.act e cmd

instance (s : Custody W) (cmd : Cmd) : Decidable ((sys e).enabled s cmd) := isTrue trivial

/-- Every accepted transaction is in the pool, or committed, or dropped by the verifier. -/
def Kept (s : Custody W) : Prop :=
  ∀ t ∈ s.accepted, t ∈ s.exe.pool.txs ∨ t ∈ s.committed ∨ t ∈ s.dropped

instance (s : Custody W) : Decidable s.Kept :=
  inferInstanceAs (Decidable (∀ t ∈ s.accepted, _ ∨ _ ∨ _))

variable {e} {s : Custody W}

omit [Pb hiPb.TxOnBlkInfo] [Pb hiPb.ExecBlk] [Pb hiPb.Txs] [BoostJson] [Keccak] in
/-- A transaction of a block is executed, or refused by the verifier. -/
theorem mem_filterTxs_or {txs : List Tx} {t : Tx} (ht : t ∈ txs) :
    t ∈ e.filterTxs txs ∨ t ∈ txs.filter (e.txVerifier.any fun v => !v ·) := by
  rw [BlkExecutor.filterTxs]
  cases hv : e.txVerifier with
  | none => exact .inl ht
  | some verify =>
    cases hverify : verify t with
    | true => exact .inl (List.mem_filter.2 ⟨ht, hverify⟩)
    | false => exact .inr (List.mem_filter.2 ⟨ht, by simp [hverify]⟩)

variable (e) in
/-- After the command `t` is in the pool, or in a block that has been committed, or has been dropped
from one. -/
def Accounted (s : ExecutorForCnsss W) (cmd : Cmd) (t : Tx) : Prop :=
  t ∈ (s.execute e.blkExecutable cmd).1.state.pool.txs ∨
    (∃ b ∈ (s.execute e.blkExecutable cmd).2, t ∈ committedBy e s.blk b) ∨
      ∃ b ∈ (s.execute e.blkExecutable cmd).2,
        t ∈ b.txs.filter (e.txVerifier.any fun v => !v ·)

theorem accounted_addTxs (s : ExecutorForCnsss W) {arg : Bytes} {t : Tx}
    (ht : t ∈ s.pool.txs ∨ t ∈ acceptedBy s (cmdAddTxs :: arg)) :
    Accounted e s (cmdAddTxs :: arg) t := by
  refine .inl ?_
  rw [acceptedBy, switchCmd_cmdAddTxs] at ht
  rw [execute_cmdAddTxs, pool_handleAddTxs]
  cases heq : Tx.parseToArray ((cmdAddTxs :: arg).drop 1) with
  | error what =>
    simp only [heq] at ht ⊢
    exact ht.resolve_right List.not_mem_nil
  | ok txs =>
    simp only [heq] at ht ⊢
    exact Mempool.mem_addTxs ht

theorem accounted_executeBlk {s : ExecutorForCnsss W} {arg : Bytes} {t : Tx}
    (hs : s.Servable e (cmdExecuteBlk :: arg)) (ht : t ∈ s.pool.txs) :
    Accounted e s (cmdExecuteBlk :: arg) t := by
  rw [Accounted, execute, switchCmd_cmdExecuteBlk]
  cases hb : BlkForConsensus.fromString arg with
  | none => exact .inl (by simpa [handleExecuteBlk, hb, clearCmdAndComplain] using ht)
  | some b =>
    have harg : BlkForConsensus.fromString ((cmdExecuteBlk :: arg).drop 1) = some b := hb
    rcases handleExecuteBlk_of_serves harg (hs rfl b hb) with
      ⟨hpool, -⟩ | ⟨-, hout, hcommit, hkeep⟩
    · exact .inl (hpool ▸ ht)
    · rcases hkeep t ht with ht | ht
      · exact .inl ht
      · rw [hout]
        refine .inr ((mem_filterTxs_or (e := e) ht).imp ?_ ?_)
        · intro hmem
          refine ⟨_, List.mem_singleton_self _, ?_⟩
          rw [committedBy, if_pos hcommit]
          exact hmem
        · exact fun hmem => ⟨_, List.mem_singleton_self _, hmem⟩

theorem accounted_execute {s : ExecutorForCnsss W} {cmd : Cmd} {t : Tx} (hs : s.Servable e cmd)
    (ht : t ∈ s.pool.txs ∨ t ∈ acceptedBy s cmd) : Accounted e s cmd t := by
  cases cmd with
  | nil => exact .inl (ht.resolve_right List.not_mem_nil)
  | cons c arg =>
    by_cases hblk : c = cmdExecuteBlk
    · subst hblk
      exact accounted_executeBlk hs (ht.resolve_right List.not_mem_nil)
    · by_cases htxs : c = cmdAddTxs
      · subst htxs
        exact accounted_addTxs s ht
      · refine .inl ?_
        simp only [acceptedBy, execute, switchCmd, hblk, htxs, ↓reduceIte, clearCmdAndComplain]
          at ht ⊢
        exact ht.resolve_right List.not_mem_nil

theorem Kept.act (h : s.Kept) {cmd : Cmd} (hcmd : s.exe.Servable e cmd) : (s.act e cmd).Kept := by
  intro t ht
  by_cases hold : t ∈ s.committed ∨ t ∈ s.dropped
  · exact .inr (hold.imp (List.mem_append_left _) (List.mem_append_left _))
  · have hnow : t ∈ s.exe.pool.txs ∨ t ∈ acceptedBy s.exe cmd :=
      (List.mem_append.1 ht).imp (fun hacc => (h t hacc).resolve_right hold) id
    refine (accounted_execute hcmd hnow).imp_right (Or.imp ?_ ?_)
    · exact fun hmem => List.mem_append_right _ (List.mem_flatMap.2 hmem)
    · exact fun hmem => List.mem_append_right _ (List.mem_flatMap.2 hmem)

/-- **Nothing gets lost.**  If every block that is to be executed can be served, then every
transaction for which `addTx` has returned `true` is in the pool, or in a committed block, or has
been dropped by the verifier; and an `EXECUTE_BLK` that ends in an error leaves the pool as it
was. -/
theorem kept_of_reach (h : ((sys e).only fun s cmd => s.exe.Servable e cmd).Reach s) :
    s.Kept ∧ ∀ arg, s.exe.Servable e (cmdExecuteBlk :: arg) →
      let out := (s.exe.execute e.blkExecutable (cmdExecuteBlk :: arg)).1
      out.reply ≠ ascii "OK" → out.state.pool = s.exe.pool := by
  refine ⟨?_, fun arg harg => ?_⟩
  · refine h.invariant (I := Kept) ?_ ?_
    · intro s (hs : s.accepted = [])
      simp [Kept, hs]
    · intro s cmd _ hs hcmd
      exact hs.act hcmd.2
  · have hout : s.exe.execute e.blkExecutable (cmdExecuteBlk :: arg) =
        s.exe.handleExecuteBlk e.blkExecutable (cmdExecuteBlk :: arg) := switchCmd_cmdExecuteBlk ..
    rw [hout]
    cases hb : BlkForConsensus.fromString arg with
    | none => simp [handleExecuteBlk, hb, clearCmdAndComplain]
    | some b =>
      have hdrop : BlkForConsensus.fromString ((cmdExecuteBlk :: arg).drop 1) = some b := hb
      exact (pool_eq_of_error_iff hdrop).2 (harg rfl b hb)

/-- The text of a block with the number zero, and what it parses to. -/
def blkText (txhs : List Bytes) : Bytes × Json :=
  let zero := hashToString (.zero 32)
  let quote (h : Bytes) := ascii "\"" ++ h ++ ascii "\""
  (ascii "\x7b\"number\":0,\"parentHash\":" ++ quote zero ++ ascii ",\"txhs\":[" ++
      List.intercalate (ascii ",") (txhs.map quote) ++ ascii "]\x7d",
    .object [(ascii "number", .int64 0), (ascii "parentHash", .string zero),
      (ascii "txhs", .array (txhs.map .string))])

/-- A parser of one text. -/
@[reducible] def parserOf (text : Bytes × Json) : BoostJson where
  parse s := if s = text.1 then some text.2 else none
  uint64OfDouble _ := none

omit [Keccak] [Pb hiPb.TxOnBlkInfo] [Pb hiPb.ExecBlk] [Pb hiPb.Txs] [BoostJson] in
/-- A transaction is added and executed; the same block again ends in an error, and leaves the pool
as it is. -/
theorem kept_twice :
    let _ : Keccak := Sponge.keccak
    let _ : HashOrder Bytes32 := .insertion Bytes32
    let _ : Pb hiPb.Acn := Wire.pb hiPb.Acn
    let _ : Pb hiPb.Txs := Wire.pb hiPb.Txs
    let _ : Pb hiPb.TxOnBlkInfo := Wire.pb hiPb.TxOnBlkInfo
    let _ : Pb hiPb.ExecBlk := Wire.pb hiPb.ExecBlk
    let t := Tx.create (makeAddress 1) (makeAddress 2) [] 7 0
    let text := blkText [hashToString t.hash]
    let _ : BoostJson := parserOf text
    let e := BlkExecutor.inRam BlkExecutor.counter
    ∃ s, ((sys e).only fun s cmd => s.exe.Servable e cmd).Reach s ∧ s.accepted = [t] ∧
      s.committed = [t] ∧ s.Kept ∧
      (s.exe.execute e.blkExecutable (cmdExecuteBlk :: text.1)).1.reply ≠ ascii "OK" ∧
      (s.exe.execute e.blkExecutable (cmdExecuteBlk :: text.1)).1.state.pool = s.exe.pool := by
  intro _ _ _ _ _ _ t text _ e
  obtain ⟨s, hs, hacc, hcommitted, hservable, herror⟩ := Sys.exists_reach_of_exec
    (A := (sys e).only fun s cmd => s.exe.Servable e cmd)
    (s := { exe := ⟨⟨∅, ∅⟩, .create ∅ 2⟩ })
    (P := fun s => s.accepted = [t] ∧ s.committed = [t] ∧
      s.exe.Servable e (cmdExecuteBlk :: text.1) ∧
      (s.exe.execute e.blkExecutable (cmdExecuteBlk :: text.1)).1.reply ≠ ascii "OK") rfl
    [cmdAddTxs :: Tx.serializeFromArray [t], cmdExecuteBlk :: text.1] (by decide +kernel)
  obtain ⟨hkept, hpool⟩ := kept_of_reach hs
  exact ⟨s, hs, hacc, hcommitted, hkept, herror, hpool text.1 hservable herror⟩

omit [Keccak] [Pb hiPb.TxOnBlkInfo] [Pb hiPb.ExecBlk] [Pb hiPb.Txs] [BoostJson] in
/-- A block with a transaction of the pool and an unknown one: the former is popped, and is nowhere
any more. -/
theorem not_kept :
    let _ : Keccak := Sponge.keccak
    let _ : HashOrder Bytes32 := .insertion Bytes32
    let _ : Pb hiPb.Acn := Wire.pb hiPb.Acn
    let _ : Pb hiPb.Txs := Wire.pb hiPb.Txs
    let _ : Pb hiPb.TxOnBlkInfo := Wire.pb hiPb.TxOnBlkInfo
    let _ : Pb hiPb.ExecBlk := Wire.pb hiPb.ExecBlk
    let t := Tx.create (makeAddress 1) (makeAddress 2) [] 7 0
    let text := blkText [hashToString t.hash, hashToString (.zero 32)]
    let _ : BoostJson := parserOf text
    let e := BlkExecutor.inRam BlkExecutor.counter
    ¬∀ s, (sys e).Reach s → s.Kept := by
  intro _ _ _ _ _ _ t text _ e hall
  obtain ⟨s, hs, hlost⟩ := Sys.exists_reach_of_exec (A := sys e)
    (s := { exe := ⟨⟨∅, ∅⟩, .create ∅ 2⟩ }) (P := fun s => ¬s.Kept) rfl
    [cmdAddTxs :: Tx.serializeFromArray [t], cmdExecuteBlk :: text.1] (by decide +kernel)
  exact hlost (hall s hs)

end Custody

end WeakChain
