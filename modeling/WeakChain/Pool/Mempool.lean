import WeakChain.Core.Tx
import Mathlib.Data.Finset.Insert
import Mathlib.Data.List.Nodup
import Mathlib.Data.List.Perm.Basic

/-!
# The mempool

`Mempool` is a container of transactions with two unique orders (the order of `Tx` and the order of
the hashes) together with the set `hs` of all hashes it has ever seen.  The set only grows, and a
transaction enters the pool only if its hash is new.  So the hashes of the transactions in the pool
are distinct and all in `hs`; the structure carries both facts.

`insertTx_of_fresh` : a transaction with a new hash is always inserted, since transactions that the
container takes for the same have the same sender and nonce.
-/

namespace WeakChain

/-- Transactions that are the same for `Tx::operator<` have the same sender and nonce. -/
theorem Tx.eq_of_equivalent {t r : Tx} (h : t.equivalent r = true) :
    t.fromAddr = r.fromAddr ∧ t.nonce = r.nonce := by
  simp only [equivalent, lt, indexLt, bytesLt, Bool.and_eq_true, Bool.not_eq_true',
    Bool.or_eq_false_iff, Bool.and_eq_false_iff, decide_eq_false_iff_not] at h
  obtain ⟨⟨h1, h2⟩, h3, h4⟩ := h
  have hts : t.timestamp = r.timestamp :=
    Int64.le_antisymm (Int64.not_lt.1 h4) (Int64.not_lt.1 h2)
  -- equal timestamps, so the senders and nonces decide
  obtain ⟨h5, h6⟩ := h1.resolve_left (by simpa using hts)
  obtain ⟨h7, h8⟩ := h3.resolve_left (by simpa using hts.symm)
  have haddr : t.fromAddr = r.fromAddr :=
    FixedBytes.ext (List.le_antisymm (List.not_lt.1 h8) (List.not_lt.1 h6))
  refine ⟨haddr, UInt64.le_antisymm ?_ ?_⟩
  · exact UInt64.not_lt.1 (h7.resolve_left (by simpa using haddr.symm))
  · exact UInt64.not_lt.1 (h5.resolve_left (by simpa using haddr))

variable [Keccak]

theorem Tx.hash_eq_of_equivalent {t r : Tx} (h : t.equivalent r = true) : t.hash = r.hash := by
  obtain ⟨h1, h2⟩ := Tx.eq_of_equivalent h
  rw [Tx.hash, Tx.hash, h1, h2]

/-- `txs.insert(t)`: refused if one of the two orders has the transaction already. -/
def insertTx (txs : List Tx) (t : Tx) : List Tx × Bool :=
  if txs.any fun u => u.equivalent t || u.hash = t.hash then (txs, false)
  else (txs.takeWhile (·.lt t) ++ t :: txs.dropWhile (·.lt t), true)

/-- **A new hash always inserts.** -/
theorem insertTx_of_fresh {txs : List Tx} {t : Tx} (h : t.hash ∉ txs.map Tx.hash) :
    insertTx txs t = (txs.takeWhile (·.lt t) ++ t :: txs.dropWhile (·.lt t), true) := by
  refine if_neg fun hany => h ?_
  obtain ⟨u, hu, hut⟩ := List.any_eq_true.1 hany
  rcases Bool.or_eq_true _ _ ▸ hut with hut | hut
  · exact List.mem_map.2 ⟨u, hu, Tx.hash_eq_of_equivalent hut⟩
  · exact List.mem_map.2 ⟨u, hu, by simpa using hut⟩

theorem insertTx_perm {txs : List Tx} {t : Tx} (h : t.hash ∉ txs.map Tx.hash) :
    (insertTx txs t).1.Perm (t :: txs) := by
  rw [insertTx_of_fresh h]
  refine List.perm_middle.trans ?_
  rw [List.takeWhile_append_dropWhile]

/-- The pool. -/
structure Mempool where
  /-- The transactions, in the order of `Tx::operator<`. -/
  txs : List Tx
  /-- All hashes seen so far. -/
  hs : Finset Hash256
  /-- How many transactions are sealed at once. -/
  maxTxsPerBatch : ℤ
  /-- The hashes of the pool have been seen. -/
  hash_mem : ∀ t ∈ txs, t.hash ∈ hs
  /-- They are distinct. -/
  nodup : (txs.map Tx.hash).Nodup

namespace Mempool

/-- The constructor: `hs` are the hashes of the transactions executed before. -/
def create (hs : Finset Hash256) (maxTxsPerBatch : ℤ) : Mempool :=
  ⟨[], hs, maxTxsPerBatch, fun _ h => absurd h List.not_mem_nil, List.nodup_nil⟩

variable (p : Mempool)

theorem fresh_of_notMem {p : Mempool} {t : Tx} (h : t.hash ∉ p.hs) :
    t.hash ∉ p.txs.map Tx.hash := by
  intro hm
  obtain ⟨u, hu, hut⟩ := List.mem_map.1 hm
  exact h (hut ▸ p.hash_mem u hu)

/-- `verifyTx`. -/
def verifyTx (t : Tx) : Bool := decide (t.hash ∉ p.hs)

/-- `addTx`: whether the transaction was added. -/
def addTx (t : Tx) : Mempool × Bool :=
  if h : t.hash ∈ p.hs then (p, false)
  else
    ({ txs := (insertTx p.txs t).1
       hs := insert t.hash p.hs
       maxTxsPerBatch := p.maxTxsPerBatch
       hash_mem := by
         intro u hu
         rcases List.mem_cons.1 ((insertTx_perm (fresh_of_notMem h)).mem_iff.1 hu) with rfl | hu
         · exact Finset.mem_insert_self _ _
         · exact Finset.mem_insert_of_mem (p.hash_mem u hu)
       nodup := by
         rw [((insertTx_perm (fresh_of_notMem h)).map Tx.hash).nodup_iff, List.map_cons]
         exact List.nodup_cons.2 ⟨fresh_of_notMem h, p.nodup⟩ },
      (insertTx p.txs t).2)

/-- `getTxByHash` pops the transaction.  The hashes are unique, so the one that is found is the only
one that goes. -/
def getTxByHash (h : Hash256) : Mempool × Option Tx :=
  match p.txs.find? fun t => t.hash = h with
  | none => (p, none)
  | some t =>
    ({ p with
        txs := p.txs.filter fun t => t.hash ≠ h
        hash_mem := fun u hu => p.hash_mem u (List.mem_of_mem_filter hu)
        nodup := p.nodup.sublist (List.filter_sublist.map _) }, some t)

/-- Remember a hash. -/
def remember (h : Hash256) : Mempool :=
  { p with
    hs := insert h p.hs
    hash_mem := fun t ht => Finset.mem_insert_of_mem (p.hash_mem t ht) }

/-- `washTxs`: drop the transactions whose hashes have been seen, and remember the others. -/
def washTxs : Mempool → List Tx → Mempool × List Tx
  | p, [] => (p, [])
  | p, t :: ts =>
    if t.hash ∈ p.hs then washTxs p ts
    else
      let r := washTxs (p.remember t.hash) ts
      (r.1, t :: r.2)

/-- `getTxHashesForSeal`: the first few. -/
def getTxHashesForSeal : List Hash256 := (p.txs.take p.maxTxsPerBatch.toNat).map Tx.hash

/-! ### What the operations do -/

variable {p} {q : Mempool}

theorem addTx_of_mem {t : Tx} (h : t.hash ∈ p.hs) : p.addTx t = (p, false) := dif_pos h

theorem addTx_of_notMem {t : Tx} (h : t.hash ∉ p.hs) :
    (p.addTx t).2 = true ∧ (p.addTx t).1.hs = insert t.hash p.hs ∧
      (p.addTx t).1.txs.Perm (t :: p.txs) := by
  rw [addTx, dif_neg h]
  exact ⟨congrArg Prod.snd (insertTx_of_fresh (fresh_of_notMem h)), rfl,
    insertTx_perm (fresh_of_notMem h)⟩

/-- What is popped was in the pool and is not any more. -/
theorem getTxByHash_of_some {h : Hash256} {t : Tx} (ht : (p.getTxByHash h).2 = some t) :
    t.hash = h ∧ t ∈ p.txs ∧ (p.getTxByHash h).1.hs = p.hs ∧
      (p.getTxByHash h).1.txs ⊆ p.txs ∧ h ∉ (p.getTxByHash h).1.txs.map Tx.hash := by
  unfold getTxByHash at ht ⊢
  cases hf : p.txs.find? fun t => t.hash = h with
  | none =>
    rw [hf] at ht
    cases ht
  | some u =>
    rw [hf] at ht
    obtain rfl := Option.some.inj ht
    have hu : u.hash = h := by simpa using List.find?_some hf
    refine ⟨hu, List.mem_of_find?_eq_some hf, rfl, List.filter_sublist.subset, fun hm => ?_⟩
    obtain ⟨v, hv, hvh⟩ := List.mem_map.1 hm
    have hne := (List.mem_filter.1 hv).2
    simp [hvh] at hne

theorem getTxByHash_of_none {h : Hash256} (ht : (p.getTxByHash h).2 = none) :
    (p.getTxByHash h).1 = p := by
  unfold getTxByHash at ht ⊢
  cases hf : p.txs.find? fun t => t.hash = h with
  | none => rfl
  | some u =>
    rw [hf] at ht
    cases ht

/-! ### Runs -/

/-- A call of the pool. -/
inductive Call
  | addTx (t : Tx)
  | getTxByHash (h : Hash256)
  | washTxs (ts : List Tx)
  | getTxHashesForSeal

/-- The pool after a call. -/
def act (p : Mempool) : Call → Mempool
  | .addTx t => (p.addTx t).1
  | .getTxByHash h => (p.getTxByHash h).1
  | .washTxs ts => (p.washTxs ts).1
  | .getTxHashesForSeal => p

/-- The pool after some calls. -/
def run (p : Mempool) (cs : List Call) : Mempool := cs.foldl act p

/-- What every call keeps, every sequence of calls keeps. -/
theorem run_induction {P : Mempool → Prop} (hact : ∀ p c, P p → P (p.act c)) (h : P p)
    (cs : List Call) : P (p.run cs) := by
  induction cs generalizing p with
  | nil => exact h
  | cons c cs ih => exact ih (hact p c h)

theorem hs_getTxByHash (h : Hash256) : (p.getTxByHash h).1.hs = p.hs := by
  rw [getTxByHash]
  cases p.txs.find? fun t => t.hash = h <;> rfl

/-- What remembering a hash keeps, `washTxs` keeps. -/
theorem washTxs_induction {P : Mempool → Prop} (hremember : ∀ p h, P p → P (p.remember h)) (h : P p)
    (ts : List Tx) : P (p.washTxs ts).1 := by
  induction ts generalizing p with
  | nil => exact h
  | cons t ts ih =>
    rw [washTxs]
    split_ifs
    · exact ih h
    · exact ih (hremember p t.hash h)

theorem hs_subset_washTxs (p : Mempool) (ts : List Tx) : p.hs ⊆ (p.washTxs ts).1.hs :=
  washTxs_induction (P := fun q => p.hs ⊆ q.hs)
    (fun _ _ hq => hq.trans (Finset.subset_insert _ _)) (Finset.Subset.refl _) ts

/-- A call forgets no hash. -/
theorem hs_subset_act (p : Mempool) (c : Call) : p.hs ⊆ (p.act c).hs := by
  cases c with
  | addTx t =>
    by_cases ht : t.hash ∈ p.hs
    · rw [act, addTx_of_mem ht]
    · rw [act, (addTx_of_notMem ht).2.1]
      exact Finset.subset_insert _ _
  | getTxByHash h =>
    rw [act, hs_getTxByHash]
  | washTxs ts => exact hs_subset_washTxs p ts
  | getTxHashesForSeal => exact Finset.Subset.refl _

/-- No sequence of calls forgets a hash. -/
theorem hs_subset_run (p : Mempool) (cs : List Call) : p.hs ⊆ (p.run cs).hs :=
  run_induction (P := fun q => p.hs ⊆ q.hs) (fun q c h => h.trans (hs_subset_act q c))
    (Finset.Subset.refl _) cs

theorem addTx_eq_true_iff {t : Tx} : (p.addTx t).2 = true ↔ t.hash ∉ p.hs := by
  by_cases ht : t.hash ∈ p.hs
  · rw [addTx_of_mem ht]
    simp [ht]
  · simp [ht, (addTx_of_notMem ht).1]

/-- **What the pool promises.**  After any sequence of calls on a pool that starts with any hashes:
the hashes of the transactions in the pool have been seen, no later call forgets one, and a
transaction is added if and only if its hash has not been seen, that is, if `verifyTx` says so; then
it is in the pool, and otherwise nothing changes. -/
theorem invariant_run (H : Finset Hash256) (m : ℤ) (cs : List Call) :
    let p := (create H m).run cs
    (∀ t ∈ p.txs, t.hash ∈ p.hs) ∧ (∀ cs', p.hs ⊆ (p.run cs').hs) ∧
      ∀ t, ((p.addTx t).2 = true ↔ t.hash ∉ p.hs) ∧
        ((p.addTx t).2 = true ↔ p.verifyTx t = true) ∧
        ((p.addTx t).2 = true → t ∈ (p.addTx t).1.txs) ∧
        ((p.addTx t).2 = false → (p.addTx t).1 = p) := by
  intro p
  refine ⟨p.hash_mem, hs_subset_run p, fun t => ⟨addTx_eq_true_iff, ?_, ?_, ?_⟩⟩
  · rw [addTx_eq_true_iff, verifyTx, decide_eq_true_iff]
  · intro hadded
    have ht := addTx_eq_true_iff.1 hadded
    exact (addTx_of_notMem ht).2.2.mem_iff.2 List.mem_cons_self
  · intro hrefused
    have ht : t.hash ∈ p.hs := by
      by_contra ht
      rw [(addTx_of_notMem ht).1] at hrefused
      cases hrefused
    rw [addTx_of_mem ht]

/-! ### Pools with the same contents -/

/-- Two pools that differ at most in the size of a batch. -/
structure Same (p q : Mempool) : Prop where
  txs : p.txs = q.txs
  hs : p.hs = q.hs

theorem Same.rfl : p.Same p := ⟨Eq.refl _, Eq.refl _⟩

theorem Same.symm (h : p.Same q) : q.Same p := ⟨h.txs.symm, h.hs.symm⟩

theorem Same.addTx (h : p.Same q) (t : Tx) :
    (p.addTx t).1.Same (q.addTx t).1 ∧ (p.addTx t).2 = (q.addTx t).2 := by
  by_cases ht : t.hash ∈ p.hs
  · have ht' : t.hash ∈ q.hs := h.hs ▸ ht
    rw [addTx_of_mem ht, addTx_of_mem ht']
    exact ⟨h, Eq.refl _⟩
  · have ht' : t.hash ∉ q.hs := h.hs ▸ ht
    simp only [Mempool.addTx, dif_neg ht, dif_neg ht']
    exact ⟨⟨by simp only [h.txs], by simp only [h.hs]⟩, by simp only [h.txs]⟩

/-- What is washed depends on the hashes only. -/
theorem washTxs_congr (h : p.hs = q.hs) (ts : List Tx) :
    (p.washTxs ts).1.hs = (q.washTxs ts).1.hs ∧ (p.washTxs ts).2 = (q.washTxs ts).2 := by
  induction ts generalizing p q with
  | nil => exact ⟨h, Eq.refl _⟩
  | cons t ts ih =>
    by_cases ht : t.hash ∈ p.hs
    · have ht' : t.hash ∈ q.hs := h ▸ ht
      simp only [Mempool.washTxs, if_pos ht, if_pos ht']
      exact ih h
    · have ht' : t.hash ∉ q.hs := h ▸ ht
      have hrem : (p.remember t.hash).hs = (q.remember t.hash).hs := by
        simp only [remember, h]
      simp only [Mempool.washTxs, if_neg ht, if_neg ht']
      obtain ⟨h1, h2⟩ := ih hrem
      exact ⟨h1, by rw [h2]⟩

theorem washTxs_sublist (p : Mempool) (ts : List Tx) : (p.washTxs ts).2.Sublist ts := by
  induction ts generalizing p with
  | nil => exact List.Sublist.refl _
  | cons t ts ih =>
    simp only [washTxs]
    split_ifs
    · exact (ih p).cons t
    · exact (ih _).cons_cons t

/-- Washing what has been washed by a pool with the same hashes keeps all of it. -/
theorem washTxs_washTxs (p : Mempool) (ts : List Tx) :
    p.washTxs (p.washTxs ts).2 = p.washTxs ts := by
  induction ts generalizing p with
  | nil => rfl
  | cons t ts ih =>
    by_cases ht : t.hash ∈ p.hs
    · simp only [washTxs, if_pos ht]
      exact ih p
    · simp only [washTxs, if_neg ht, ih (p.remember t.hash)]

end Mempool

end WeakChain
