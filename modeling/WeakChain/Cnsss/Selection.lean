import WeakChain.Cnsss.Custody
import WeakChain.Cnsss.Sealer
import WeakChain.Pool.Order

/-!
# What is sealed

`getTxHashesForSeal` takes the hashes of the first few transactions of the pool, `BlkForConsensus`
carries them, and `toBlk` gets the transactions back, one after the other, each of which it pops.

* `Mempool.selection_run` : they are the smallest transactions, and all of them are still there.
* `BlkForConsensus.agrees_run` : the block that is made of them has the hash of the block of hashes,
  and they are what the pool has lost.
-/

namespace WeakChain

variable [Keccak]

namespace Mempool

variable {p : Mempool}

/-! ### Looking transactions up -/

/-- The transactions of a pool are found by their hashes. -/
theorem find?_hash {t : Tx} (ht : t ∈ p.txs) : (p.txs.find? fun u => u.hash = t.hash) = some t := by
  have hsome : (p.txs.find? fun u => u.hash = t.hash).isSome = true :=
    List.find?_isSome.2 ⟨t, ht, decide_eq_true rfl⟩
  obtain ⟨u, hu⟩ := Option.isSome_iff_exists.1 hsome
  have hut : u.hash = t.hash := by simpa using List.find?_some hu
  rw [hu, List.inj_on_of_nodup_map p.nodup (List.mem_of_find?_eq_some hu) ht hut]

theorem lookup_map_hash {ts : List Tx} (h : ∀ t ∈ ts, t ∈ p.txs) :
    p.lookup (ts.map Tx.hash) = ts := by
  induction ts with
  | nil => rfl
  | cons t ts ih =>
    have hrest := ih fun u hu => h u (List.mem_cons_of_mem _ hu)
    rw [lookup] at hrest
    rw [lookup, List.map_cons, List.filterMap_cons, find?_hash (h t List.mem_cons_self), hrest]

theorem map_hash_lookup {hs : List Hash256} (h : ∀ x ∈ hs, p.Has x) :
    (p.lookup hs).map Tx.hash = hs := by
  induction hs with
  | nil => rfl
  | cons x hs ih =>
    obtain ⟨t, ht, rfl⟩ := List.mem_map.1 (h x List.mem_cons_self)
    have hrest := ih fun y hy => h y (List.mem_cons_of_mem _ hy)
    rw [lookup] at hrest ⊢
    rw [List.filterMap_cons, find?_hash ht, List.map_cons, hrest]

theorem mem_of_mem_lookup {hs : List Hash256} {t : Tx} (h : t ∈ p.lookup hs) : t ∈ p.txs := by
  obtain ⟨x, -, hx⟩ := List.mem_filterMap.1 h
  exact List.mem_of_find?_eq_some hx

/-! ### Popping transactions -/

/-- What is left when transactions have been popped. -/
theorem txs_popAll {hs : List Hash256} (hnodup : hs.Nodup) (hall : ∀ h ∈ hs, p.Has h) :
    (p.popAll hs).1.txs = p.txs.filter fun t => t.hash ∉ hs := by
  induction hs generalizing p with
  | nil => simp [popAll]
  | cons h hs ih =>
    rw [List.nodup_cons] at hnodup
    obtain ⟨t, p', hpop, -, hp'⟩ := getTxByHash_of_has (hall h List.mem_cons_self)
    have hall' : ∀ h' ∈ hs, p'.Has h' := fun h' hh' =>
      (has_filter hp').2 ⟨hall h' (List.mem_cons_of_mem _ hh'), fun heq => hnodup.1 (heq ▸ hh')⟩
    rw [popAll, hpop]
    change (p'.popAll hs).1.txs = _
    rw [ih hnodup.2 hall', hp', List.filter_filter]
    refine List.filter_congr fun u _ => ?_
    rw [← Bool.decide_and, decide_eq_decide, List.mem_cons, not_or, and_comm]

theorem hs_popAll (p : Mempool) (hs : List Hash256) : (p.popAll hs).1.hs = p.hs := by
  induction hs generalizing p with
  | nil => rfl
  | cons h hs ih =>
    have hpop := hs_getTxByHash (p := p) h
    rw [popAll]
    split
    · next heq =>
      rw [heq] at hpop
      exact hpop
    · next heq =>
      rw [heq] at hpop
      exact (ih _).trans hpop

/-- What is popped and what is left make the pool. -/
theorem perm_popAll {hs : List Hash256} (hnodup : hs.Nodup) (hall : ∀ h ∈ hs, p.Has h) :
    p.txs.Perm (p.lookup hs ++ (p.popAll hs).1.txs) := by
  have htxs : p.txs.Nodup := List.Nodup.of_map _ p.nodup
  have hlookup : (p.lookup hs).Nodup :=
    List.Nodup.of_map Tx.hash (by rwa [map_hash_lookup hall])
  have hmem : ∀ t, t ∈ p.lookup hs ↔ t ∈ p.txs.filter fun t => t.hash ∈ hs := by
    intro t
    rw [List.mem_filter, decide_eq_true_iff]
    constructor
    · intro ht
      refine ⟨mem_of_mem_lookup ht, ?_⟩
      rw [← map_hash_lookup hall]
      exact List.mem_map_of_mem ht
    · rintro ⟨ht, hh⟩
      exact List.mem_filterMap.2 ⟨t.hash, hh, find?_hash ht⟩
  have hpopped : (p.lookup hs).Perm (p.txs.filter fun t => t.hash ∈ hs) :=
    (List.perm_ext_iff_of_nodup hlookup (htxs.filter _)).2 hmem
  have hsplit := List.filter_append_perm (fun t : Tx => decide (t.hash ∈ hs)) p.txs
  rw [txs_popAll hnodup hall]
  refine hsplit.symm.trans (List.Perm.append hpopped.symm ?_)
  simp

/-! ### The selection -/

theorem maxTxsPerBatch_act (p : Mempool) (c : Call) :
    (p.act c).maxTxsPerBatch = p.maxTxsPerBatch := by
  cases c with
  | addTx t =>
    rw [act, addTx]
    split_ifs <;> rfl
  | getTxByHash h =>
    rw [act, getTxByHash]
    cases p.txs.find? fun t => t.hash = h <;> rfl
  | washTxs ts =>
    exact washTxs_induction (P := fun q => q.maxTxsPerBatch = p.maxTxsPerBatch) (fun _ _ hq => hq)
      rfl ts
  | getTxHashesForSeal => rfl

theorem maxTxsPerBatch_run (p : Mempool) (cs : List Call) :
    (p.run cs).maxTxsPerBatch = p.maxTxsPerBatch :=
  run_induction (P := fun q => q.maxTxsPerBatch = p.maxTxsPerBatch)
    (fun q c h => (maxTxsPerBatch_act q c).trans h) rfl cs

theorem nodup_getTxHashesForSeal (p : Mempool) : p.getTxHashesForSeal.Nodup :=
  p.nodup.sublist ((List.take_sublist _ _).map _)

theorem has_of_mem_getTxHashesForSeal {h : Hash256} (hh : h ∈ p.getTxHashesForSeal) : p.Has h :=
  List.map_subset _ (List.take_subset _ _) hh

/-- **The selection.**  The order of transactions is a strict weak order whose ties are equal
timestamps, senders and nonces.  After any sequence of calls, `getTxHashesForSeal` returns the
hashes of the smallest transactions of the pool, in order, as many as are sealed at once or as there
are; they are distinct, the pool is left as it was, and `getTxByHash` finds these transactions with
them, one after the other. -/
theorem selection_run (H : Finset Hash256) (m : ℤ) (cs : List Call) :
    (IsStrictWeakOrder Tx fun t r => t.lt r = true) ∧
      (∀ t r : Tx, (¬t.lt r = true ∧ ¬r.lt t = true) ↔
        t.timestamp = r.timestamp ∧ t.fromAddr = r.fromAddr ∧ t.nonce = r.nonce) ∧
      let p := (create H m).run cs
      ∃ ts : List Tx, p.getTxHashesForSeal = ts.map Tx.hash ∧
        ts.length = min m.toNat p.txs.length ∧ ts ⊆ p.txs ∧
        (ts.Pairwise fun t r => t.sortKey < r.sortKey) ∧
        (∀ t ∈ ts, ∀ r ∈ p.txs, r ∉ ts → t.sortKey < r.sortKey) ∧
        p.getTxHashesForSeal.Nodup ∧ p.act .getTxHashesForSeal = p ∧
        (p.popAll p.getTxHashesForSeal).2 = some ts := by
  refine ⟨Tx.isStrictWeakOrder_lt, fun _ _ => Tx.not_lt_and_not_lt_iff, ?_⟩
  intro p
  have hmax : p.maxTxsPerBatch = m := maxTxsPerBatch_run (create H m) cs
  have hstrict := (ordered_run H m cs).strict
  have hsplit : p.txs = p.txs.take m.toNat ++ p.txs.drop m.toNat := (List.take_append_drop _ _).symm
  have hseal : p.getTxHashesForSeal = (p.txs.take m.toNat).map Tx.hash := by
    rw [getTxHashesForSeal, hmax]
  refine ⟨p.txs.take m.toNat, hseal, List.length_take, List.take_subset _ _,
    hstrict.sublist (List.take_sublist _ _), ?_, nodup_getTxHashesForSeal p, rfl, ?_⟩
  · -- what is not among the first ones comes after them
    intro t ht r hr hnot
    change r ∈ p.txs at hr
    rw [hsplit] at hr
    have hlate : r ∈ p.txs.drop m.toNat := (List.mem_append.1 hr).resolve_left hnot
    have hcross := hstrict
    change p.txs.Pairwise _ at hcross
    rw [hsplit, List.pairwise_append] at hcross
    exact hcross.2.2 t ht r hlate
  · rw [(popAll_of_all (nodup_getTxHashesForSeal p) fun h hh =>
      has_of_mem_getTxHashesForSeal hh).1, hseal]
    exact congrArg some (lookup_map_hash fun t ht => List.take_subset _ _ ht)

end Mempool

/-! ### Blocks of hashes and blocks -/

namespace BlkForConsensus

open Mempool

/-- The two hashes are the same fold, over the hashes. -/
theorem hash_eq (b : BlkForConsensus) : b.hash = serialHash b.parentHash b.txhs := rfl

/-- What `toBlk` makes of a block of hashes, if it succeeds. -/
theorem of_toBlk {b : BlkForConsensus} {B : Blk} {p p' : Mempool} (h : b.toBlk p = (p', some B)) :
    b.txhs.Nodup ∧ (∀ x ∈ b.txhs, p.Has x) ∧ p' = (p.popAll b.txhs).1 ∧
      B = ⟨b.number, b.parentHash, p.lookup b.txhs⟩ := by
  obtain ⟨hpool, hblk⟩ := Prod.mk.inj h
  obtain ⟨ts, hts, rfl⟩ := Option.map_eq_some_iff.1 hblk
  obtain ⟨hnodup, hall, rfl⟩ := all_of_popAll hts
  exact ⟨hnodup, hall, hpool.symm, rfl⟩

/-- **The two blocks agree.**  After any sequence of calls of the pool: a block that `toBlk` makes
of a block of hashes has its hash, its number and its parent, and the transactions with the hashes,
in order; and these are what the pool has lost.  A block of the hashes that the pool gives for
sealing can be made into a block. -/
theorem agrees_run (H : Finset Hash256) (m : ℤ) (cs : List Call) :
    let p := (create H m).run cs
    (∀ (b : BlkForConsensus) (B : Blk) (p' : Mempool), b.toBlk p = (p', some B) →
      B.hash = b.hash ∧ B.number = b.number ∧ B.parentHash = b.parentHash ∧
        B.txs.map Tx.hash = b.txhs ∧ p.txs.Perm (B.txs ++ p'.txs) ∧
        (p'.txs = p.txs.filter fun t => t.hash ∉ b.txhs) ∧ p'.hs = p.hs) ∧
      ∀ number parentHash,
        (toBlk ⟨number, parentHash, p.getTxHashesForSeal⟩ p).2.isSome = true := by
  intro p
  constructor
  · intro b B p' h
    obtain ⟨hnodup, hall, rfl, rfl⟩ := of_toBlk h
    have hhashes : (p.lookup b.txhs).map Tx.hash = b.txhs := map_hash_lookup hall
    refine ⟨?_, rfl, rfl, hhashes, perm_popAll hnodup hall, txs_popAll hnodup hall,
      hs_popAll p b.txhs⟩
    rw [Blk.hash, hhashes, hash_eq]
  · intro number parentHash
    have hpop := (popAll_of_all (nodup_getTxHashesForSeal p) fun h hh =>
      has_of_mem_getTxHashesForSeal hh).1
    rw [toBlk, hpop]
    rfl

omit [Keccak] in
/-- Two transactions are added, and a block of the second one is made. -/
theorem agrees_run_two :
    let _ : Keccak := Sponge.keccak
    let t₁ := Tx.create (makeAddress 1) (makeAddress 2) [] 7 0
    let t₂ := Tx.create (makeAddress 1) (makeAddress 2) [] 8 0
    let p := (create ∅ 2).run [.addTx t₁, .addTx t₂]
    let b : BlkForConsensus := ⟨0, .zero 32, [t₂.hash]⟩
    ∃ B p', b.toBlk p = (p', some B) ∧ B.txs = [t₂] ∧ p'.txs = [t₁] ∧ B.hash = b.hash := by
  intro _ t₁ t₂ p b
  obtain ⟨hblk, htxs⟩ : (b.toBlk p).2 = some ⟨0, .zero 32, [t₂]⟩ ∧ (b.toBlk p).1.txs = [t₁] := by
    decide +kernel
  rcases htoBlk : b.toBlk p with ⟨p', r⟩
  rw [htoBlk] at hblk htxs
  obtain rfl : r = some _ := hblk
  exact ⟨_, p', rfl, rfl, htxs, ((agrees_run ∅ 2 [.addTx t₁, .addTx t₂]).1 b _ _ htoBlk).1⟩

end BlkForConsensus

end WeakChain
