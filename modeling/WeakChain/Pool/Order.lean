import WeakChain.Pool.Mempool
import Mathlib.Data.List.Lex
import Mathlib.Data.List.Sort
import Mathlib.Data.Prod.Lex

/-!
# The order of the pool

`Tx::operator<` is written as two comparisons that fall through to a third one.  It is the order by
timestamp, then by the bytes of the sender, then by nonce (`Tx.lt_iff`): an order by keys in a
linear order, so that ties are equal keys.

The pool is kept in this order (`Mempool.ordered_run`), and strictly, since two transactions with
the same key have the same hash.
-/

namespace WeakChain

namespace Tx

/-- What transactions are ordered by: the timestamp, the bytes of the sender, the nonce. -/
def sortKey (t : Tx) : ℤ ×ₗ List ℕ ×ₗ ℕ :=
  toLex (t.timestamp.toInt, toLex (t.fromAddr.bytes.map UInt8.toNat, t.nonce.toNat))

/-- Bytes are compared as numbers. -/
theorem map_toNat_lt_iff {a b : Bytes} :
    a.map UInt8.toNat < b.map UInt8.toNat ↔ a < b := by
  induction a generalizing b with
  | nil => cases b <;> simp
  | cons x a ih =>
    cases b with
    | nil => simp
    | cons y b =>
      rw [List.map_cons, List.map_cons, List.cons_lt_cons_iff, List.cons_lt_cons_iff, ih,
        UInt8.toNat_inj, ← UInt8.lt_iff_toNat_lt]

theorem map_toNat_inj {a b : Bytes} : a.map UInt8.toNat = b.map UInt8.toNat ↔ a = b :=
  (List.map_injective_iff.2 fun _ _ => UInt8.toNat_inj.1).eq_iff

theorem fromAddr_eq_iff {t r : Tx} :
    t.fromAddr = r.fromAddr ↔ t.fromAddr.bytes = r.fromAddr.bytes :=
  ⟨fun h => h ▸ rfl, FixedBytes.ext⟩

/-- **The order of transactions** is that of their keys. -/
theorem lt_iff {t r : Tx} : t.lt r = true ↔ t.sortKey < r.sortKey := by
  rw [sortKey, sortKey, Prod.Lex.toLex_lt_toLex, Prod.Lex.toLex_lt_toLex, map_toNat_lt_iff,
    map_toNat_inj, ← fromAddr_eq_iff, Int64.toInt_inj, ← Int64.lt_iff_toInt_lt,
    ← UInt64.lt_iff_toNat_lt]
  simp only [lt, indexLt, bytesLt, Bool.or_eq_true, Bool.and_eq_true, decide_eq_true_eq]
  tauto

/-- Ties are equal timestamps, senders and nonces. -/
theorem sortKey_eq_iff {t r : Tx} :
    t.sortKey = r.sortKey ↔
      t.timestamp = r.timestamp ∧ t.fromAddr = r.fromAddr ∧ t.nonce = r.nonce := by
  rw [sortKey, sortKey, toLex_inj, Prod.mk.injEq, toLex_inj, Prod.mk.injEq, map_toNat_inj,
    ← fromAddr_eq_iff, Int64.toInt_inj, UInt64.toNat_inj]

/-- Neither comes before the other. -/
theorem not_lt_and_not_lt_iff {t r : Tx} :
    (¬t.lt r = true ∧ ¬r.lt t = true) ↔
      t.timestamp = r.timestamp ∧ t.fromAddr = r.fromAddr ∧ t.nonce = r.nonce := by
  rw [lt_iff, lt_iff, ← sortKey_eq_iff, not_lt, not_lt, and_comm]
  exact le_antisymm_iff.symm

/-- The order of transactions is a strict weak order. -/
theorem isStrictWeakOrder_lt : IsStrictWeakOrder Tx fun t r => t.lt r = true where
  irrefl t h := lt_irrefl _ (lt_iff.1 h)
  trans _ _ _ h h' := lt_iff.2 ((lt_iff.1 h).trans (lt_iff.1 h'))
  incomp_trans t r u h h' := by
    rw [not_lt_and_not_lt_iff, ← sortKey_eq_iff] at h h' ⊢
    exact h.trans h'

theorem hash_eq_of_sortKey_eq [Keccak] {t r : Tx} (h : t.sortKey = r.sortKey) :
    t.hash = r.hash := by
  obtain ⟨-, hfrom, hnonce⟩ := sortKey_eq_iff.1 h
  rw [hash, hash, hfrom, hnonce]

end Tx

variable [Keccak]

namespace Mempool

variable {p : Mempool}

/-- The transactions are in order. -/
def Ordered (p : Mempool) : Prop := p.txs.Pairwise fun t r => t.sortKey ≤ r.sortKey

/-- A new transaction goes to its place. -/
theorem insertTx_eq_orderedInsert {txs : List Tx} {t : Tx} (h : t.hash ∉ txs.map Tx.hash) :
    (insertTx txs t).1 = txs.orderedInsert (fun t r => t.sortKey ≤ r.sortKey) t := by
  have hlt : (fun u => decide ¬t.sortKey ≤ Tx.sortKey u) = fun u => u.lt t := by
    funext u
    rw [Bool.eq_iff_iff, decide_eq_true_iff, not_le, Tx.lt_iff]
  rw [insertTx_of_fresh h, List.orderedInsert_eq_take_drop, hlt]

theorem Ordered.sublist {q : Mempool} (h : p.Ordered) (hq : q.txs.Sublist p.txs) : q.Ordered :=
  List.Pairwise.sublist hq h

theorem txs_washTxs (p : Mempool) (ts : List Tx) : (p.washTxs ts).1.txs = p.txs :=
  washTxs_induction (P := fun q => q.txs = p.txs) (fun _ _ hq => hq) rfl ts

theorem txs_getTxByHash_sublist (h : Hash256) : (p.getTxByHash h).1.txs.Sublist p.txs := by
  rw [getTxByHash]
  cases p.txs.find? fun t => t.hash = h with
  | none => exact List.Sublist.refl _
  | some t => exact List.filter_sublist

/-- A call keeps the order. -/
theorem Ordered.act (h : p.Ordered) (c : Call) : (p.act c).Ordered := by
  cases c with
  | addTx t =>
    by_cases ht : t.hash ∈ p.hs
    · rw [Mempool.act, addTx_of_mem ht]
      exact h
    · have htxs : (p.addTx t).1.txs = (insertTx p.txs t).1 := by rw [addTx, dif_neg ht]
      rw [Mempool.act, Ordered, htxs, insertTx_eq_orderedInsert (fresh_of_notMem ht)]
      exact List.Pairwise.orderedInsert _ _ h
  | getTxByHash x => exact h.sublist (txs_getTxByHash_sublist x)
  | washTxs ts =>
    rw [Mempool.act, Ordered, txs_washTxs]
    exact h
  | getTxHashesForSeal => exact h

/-- **The pool is in order** after any sequence of calls. -/
theorem ordered_run (H : Finset Hash256) (m : ℤ) (cs : List Call) : ((create H m).run cs).Ordered :=
  run_induction (fun _ c h => h.act c) List.Pairwise.nil cs

/-- No two transactions of a pool have the same key. -/
theorem Ordered.strict (h : p.Ordered) : p.txs.Pairwise fun t r => t.sortKey < r.sortKey := by
  have hne : p.txs.Pairwise fun t r => t.hash ≠ r.hash := List.pairwise_map.1 p.nodup
  exact h.imp₂ (fun t r hle hne => lt_of_le_of_ne hle fun heq => hne (Tx.hash_eq_of_sortKey_eq heq))
    hne

end Mempool

end WeakChain
