import WeakChain.Cnsss.Sealer
import WeakChain.Lib.HashChain

/-!
# The hash of a block

`hash()` of a block is the end of a chain of hashes that begins with the hash of the parent, one for
each transaction.  Neither the number of the block nor the number of its transactions is hashed.  So
a block can be cut in two: what its first transactions make of the hash of the parent is the parent
of a block of the others that has the same hash.  With all of them taken off, this is an empty block
on top of the block, which has the hash of its parent.

There are no other blocks with the same hash, unless Keccak-256 has a collision
(`BlkHash.sameHash_iff`).
-/

namespace WeakChain

namespace BlkHash

variable [Keccak]

/-- The hash of a transaction with the hash so far. -/
def hashStep (h₁ h : Hash256) : Hash256 := keccak256 (h₁.bytes ++ h.bytes)

theorem serialHash_eq (parentHash : Hash256) (hs : List Hash256) :
    serialHash parentHash hs = HashChain.hash hashStep parentHash hs := rfl

/-- The strings that are hashed. -/
def hashed (parentHash : Hash256) (hs : List Hash256) : List Bytes :=
  (HashChain.inputs hashStep parentHash hs).map fun p => p.1.bytes ++ p.2.bytes

/-- Keccak-256 has no collision among some strings.  It must have one among all the strings there
are, so this is as much as can be assumed. -/
def NoCollision (ss : List Bytes) : Prop :=
  ∀ s ∈ ss, ∀ s' ∈ ss, keccak256 s = keccak256 s' → s = s'

/-- The second block is the end of the first one: it has the last transactions, and its parent is
what the others have made of the parent of the first one. -/
def IsEnd (parentHash : Hash256) (hs : List Hash256) (parentHash' : Hash256)
    (hs' : List Hash256) : Prop :=
  ∃ first, hs = first ++ hs' ∧ serialHash parentHash first = parentHash'

variable {parentHash parentHash' : Hash256} {hs hs' : List Hash256}

theorem isEnd_iff : IsEnd parentHash hs parentHash' hs' ↔
    HashChain.Continues hashStep parentHash hs parentHash' hs' := Iff.rfl

omit [Keccak] in
/-- The two parts of what is hashed have a fixed size. -/
theorem append_bytes_inj {p q : Hash256 × Hash256}
    (h : p.1.bytes ++ p.2.bytes = q.1.bytes ++ q.2.bytes) : p = q := by
  obtain ⟨h₁, h₂⟩ := List.append_inj h (by rw [p.1.size, q.1.size])
  exact Prod.ext (FixedBytes.ext h₁) (FixedBytes.ext h₂)

theorem collisionFree_of_noCollision
    (h : NoCollision (hashed parentHash hs ++ hashed parentHash' hs')) :
    HashChain.CollisionFree hashStep
      (HashChain.inputs hashStep parentHash hs ++ HashChain.inputs hashStep parentHash' hs') := by
  intro p hp q hq heq
  rw [hashed, hashed, ← List.map_append] at h
  exact append_bytes_inj (h _ (List.mem_map_of_mem hp) _ (List.mem_map_of_mem hq) heq)

theorem serialHash_eq_iff (h : NoCollision (hashed parentHash hs ++ hashed parentHash' hs')) :
    serialHash parentHash hs = serialHash parentHash' hs' ↔
      IsEnd parentHash hs parentHash' hs' ∨ IsEnd parentHash' hs' parentHash hs := by
  rw [serialHash_eq, serialHash_eq, isEnd_iff, isEnd_iff]
  exact HashChain.hash_eq_hash_iff (collisionFree_of_noCollision h)

theorem eq_of_serialHash_eq (h : NoCollision (hashed parentHash hs ++ hashed parentHash' hs'))
    (hlen : hs.length = hs'.length)
    (heq : serialHash parentHash hs = serialHash parentHash' hs') :
    parentHash = parentHash' ∧ hs = hs' :=
  HashChain.eq_of_hash_eq (collisionFree_of_noCollision h) hlen heq

/-- **What the hash of a block identifies.**  If Keccak-256 has no collision among the strings that
are hashed, two blocks have the same hash if and only if one of them is the end of the other; so if
they have equally many transactions, they have the same parent and the same hashes of transactions.
This is so of blocks and of blocks of hashes. -/
theorem sameHash_iff :
    (∀ b b' : Blk,
      NoCollision (hashed b.parentHash (b.txs.map Tx.hash) ++
        hashed b'.parentHash (b'.txs.map Tx.hash)) →
      (b.hash = b'.hash ↔
        IsEnd b.parentHash (b.txs.map Tx.hash) b'.parentHash (b'.txs.map Tx.hash) ∨
          IsEnd b'.parentHash (b'.txs.map Tx.hash) b.parentHash (b.txs.map Tx.hash)) ∧
      (b.txs.length = b'.txs.length → b.hash = b'.hash →
        b.parentHash = b'.parentHash ∧ b.txs.map Tx.hash = b'.txs.map Tx.hash)) ∧
    ∀ b b' : BlkForConsensus,
      NoCollision (hashed b.parentHash b.txhs ++ hashed b'.parentHash b'.txhs) →
      (b.hash = b'.hash ↔ IsEnd b.parentHash b.txhs b'.parentHash b'.txhs ∨
        IsEnd b'.parentHash b'.txhs b.parentHash b.txhs) ∧
      (b.txhs.length = b'.txhs.length → b.hash = b'.hash →
        b.parentHash = b'.parentHash ∧ b.txhs = b'.txhs) := by
  refine ⟨fun b b' h => ⟨serialHash_eq_iff h, fun hlen heq => ?_⟩,
    fun b b' h => ⟨serialHash_eq_iff h, eq_of_serialHash_eq h⟩⟩
  exact eq_of_serialHash_eq h (by simpa using hlen) heq

/-- A transaction. -/
def someTx : Tx := Tx.create (makeAddress 1) (makeAddress 2) [] 7 0

omit [Keccak] in
/-- A block with one transaction, and the empty block that is its end. -/
theorem sameHash_iff_empty :
    let _ : Keccak := Sponge.keccak
    let b : Blk := ⟨0, .zero 32, [someTx]⟩
    let b' : Blk := ⟨1, serialHash (.zero 32) [someTx.hash], []⟩
    b.hash = b'.hash := by
  intro _ b b'
  have hfree : NoCollision (hashed b.parentHash (b.txs.map Tx.hash) ++
      hashed b'.parentHash (b'.txs.map Tx.hash)) := by
    simp [NoCollision, hashed, HashChain.inputs, b, b']
  exact (sameHash_iff.1 b b' hfree).1.2 (.inl ⟨[someTx.hash], rfl, rfl⟩)

omit [Keccak] in
/-- An empty block on top of a block has the hash of the block. -/
theorem not_sameHash :
    let _ : Keccak := Sponge.keccak
    let b : Blk := ⟨0, .zero 32, [someTx]⟩
    let b' : Blk := ⟨1, b.hash, []⟩
    NoCollision (hashed b.parentHash (b.txs.map Tx.hash) ++
        hashed b'.parentHash (b'.txs.map Tx.hash)) ∧
      b.hash = b'.hash ∧ b.parentHash ≠ b'.parentHash ∧
        b.txs.map Tx.hash ≠ b'.txs.map Tx.hash := by
  intro _ b b'
  refine ⟨?_, rfl, by decide +kernel, List.cons_ne_nil _ _⟩
  simp [NoCollision, hashed, HashChain.inputs, b, b']

end BlkHash

end WeakChain
