import WeakChain.Rpc.Lookup

/-!
# The spelling of a hash

A query for a transaction is checked by decoding the hash, which may be spelled in upper or lower
case, with `0x` or without, and with or without leading zeros.  But what is looked up is the text of
the query, and `commitBlk` has stored the place under one spelling (`TxKeys`).

`Rpc.spelling_iff` says for which spellings of a hash the answers are the same.
-/

namespace WeakChain

namespace Rpc

/-! ### The keys of transactions -/

/-- The keys of transactions are those of hashes. -/
def TxKeys (db : StringMap) : Prop :=
  ∀ k ∈ db, (ascii "/tx/").isPrefixOf k = true → ∃ h, txKey h = k

namespace TxKeys

theorem empty : TxKeys ∅ := fun _ hk => absurd hk Finmap.notMem_empty

theorem insert {db : StringMap} (hdb : TxKeys db) {k : Bytes} (v : Bytes)
    (hk : (ascii "/tx/").isPrefixOf k = true → ∃ h, txKey h = k) : TxKeys (db.insert k v) := by
  intro k' hk'
  rcases Finmap.mem_insert.1 hk' with rfl | hk'
  · exact hk
  · exact hdb k' hk'

variable [Pb hiPb.Acn] {w : InRamWorldStorage × Stream' Bool}

theorem setInChainDB (hw : TxKeys w.1.chainDB) {k : Bytes} (v : Bytes)
    (hk : (ascii "/tx/").isPrefixOf k = true → ∃ h, txKey h = k) :
    TxKeys (answering.setInChainDB w k v).1.1.chainDB := by
  cases hp : w.2.head with
  | true =>
    simp only [answering, hp, if_true]
    exact hw.insert v hk
  | false =>
    simp only [answering, hp, Bool.false_eq_true, if_false]
    exact hw

theorem applyJournalStateDB (hw : TxKeys w.1.chainDB) (j : Journal) :
    TxKeys (answering.applyJournalStateDB w j).1.1.chainDB := by
  cases hp : w.2.head with
  | true =>
    simp only [answering, hp, if_true]
    exact hw
  | false =>
    simp only [answering, hp, Bool.false_eq_true, if_false]
    exact hw

variable [Keccak] [Pb hiPb.TxOnBlkInfo] {E : ITxExecutable} {v : Option (Tx → Bool)}

theorem commitTxs (hw : TxKeys w.1.chainDB) (number : UInt64) (i : ℕ) (tjs : List (Tx × Journal)) :
    TxKeys ((⟨answering, E, v⟩ : BlkExecutor _).commitTxs number i w tjs).1.1.chainDB := by
  induction tjs generalizing i w with
  | nil => exact hw
  | cons tj tjs ih =>
    obtain ⟨t, j⟩ := tj
    have hplace := hw.setInChainDB (TxOnBlkInfo.toString ⟨number, .ofNat i⟩)
      (k := txKey t.hash) fun _ => ⟨_, rfl⟩
    have hjournal := hplace.applyJournalStateDB j
    rw [BlkExecutor.commitTxs]
    split
    · next heq =>
      rw [txKey, heq] at hjournal
      exact hjournal
    · next heq =>
      rw [txKey, heq] at hjournal
      exact ih hjournal (i + 1)

variable [Pb hiPb.ExecBlk]

/-- A block that is committed, or that is not. -/
theorem commitBlk (hw : TxKeys w.1.chainDB) (b : ExecBlk) :
    TxKeys ((⟨answering, E, v⟩ : BlkExecutor _).commitBlk w b).1.1.chainDB := by
  have htxs := hw.commitTxs (E := E) (v := v) b.number 0 (b.txs.zip b.stateChanges)
  rw [BlkExecutor.commitBlk]
  split
  · next heq =>
    rw [heq] at htxs
    exact htxs
  · next heq =>
    rw [heq] at htxs
    have hblk := htxs.setInChainDB b.toString (k := ascii "/blk/" ++ decimal b.number.toNat)
      fun hpre => by cases hpre
    dsimp only
    split
    · next heq =>
      rw [heq] at hblk
      exact hblk
    · next heq =>
      rw [heq] at hblk
      exact hblk.setInChainDB _ fun hpre => by cases hpre

/-- Any number of blocks, some of which may have failed. -/
theorem foldl_commitBlk (hw : TxKeys w.1.chainDB) (bs : List ExecBlk) :
    TxKeys (bs.foldl (fun w b => ((⟨answering, E, v⟩ : BlkExecutor _).commitBlk w b).1) w).1.chainDB
    := by
  induction bs generalizing w with
  | nil => exact hw
  | cons b bs ih => exact ih (hw.commitBlk b)

end TxKeys

/-! ### The answers -/

/-- The answer to a query for a hash that is not on the chain. -/
def notFound (h : Bytes) : Bytes :=
  ascii "Error: `hash` " ++ h ++ ascii (" does not (yet) exist on the chain.\n" ++
    " Maybe you should try again later, or check your hash.")

theorem notFound_injective : Function.Injective notFound := fun _ _ h =>
  List.append_cancel_left (List.append_cancel_right h)

variable [Keccak] [Pb hiPb.ExecBlk] [Pb hiPb.TxOnBlkInfo] {db : StringMap} {h : Bytes} {H : Hash256}

omit [Keccak] [Pb hiPb.ExecBlk] in
/-- There is no entry for any other spelling than that of `commitBlk`. -/
theorem getTxOnBlkInfo_of_missing (hdb : TxKeys db) (hH : fromHex 32 h = some H)
    (hmissing : h ≠ hashToString H ∨ db.lookup (txKey H) = none) :
    getTxOnBlkInfo db h = .error (notFound h) := by
  have hlookup : db.lookup (ascii "/tx/" ++ h) = none := by
    by_contra hne
    obtain ⟨o, ho⟩ := Option.ne_none_iff_exists'.1 hne
    obtain ⟨H', hkey⟩ := hdb _ (Finmap.mem_of_lookup_eq_some ho)
      (List.isPrefixOf_iff_prefix.2 (List.prefix_append _ _))
    obtain rfl : hashToString H' = h := List.append_cancel_left hkey
    -- the spelling of a hash is decoded as this hash
    obtain rfl : H' = H := Option.some.inj ((fromHex_hex H').symm.trans hH)
    rcases hmissing with hspell | hnone
    · exact hspell rfl
    · exact absurd (hnone.symm.trans ho) nofun
  simp only [getTxOnBlkInfo, hH, hlookup, notFound]

/-- What is found in the database has another answer. -/
theorem locate_ne_notFound {o : Bytes} (ho : db.lookup (txKey H) = some o) (h' : Bytes) :
    locate db (hashToString H) ≠ .error (notFound h') := by
  have hhex : fromHex 32 (hashToString H) = some H := fromHex_hex H
  have hlookup : db.lookup (ascii "/tx/" ++ hashToString H) = some o := ho
  intro heq
  rw [locate, getTxOnBlkInfo, hhex] at heq
  simp only [hlookup] at heq
  -- all other messages start with another letter
  cases hinfo : TxOnBlkInfo.fromString o with
  | none =>
    rw [hinfo] at heq
    cases heq
  | some info =>
    rw [hinfo] at heq
    simp only [bind, Except.bind, getBlkFromChain, getBlkOfDecimal] at heq
    cases hblk : db.lookup (ascii "/blk/" ++ decimalInt info.blkNumber.toUInt32.toInt32) with
    | none =>
      rw [hblk] at heq
      cases heq
    | some v =>
      rw [hblk] at heq
      cases hparse : ExecBlk.fromString v with
      | none =>
        simp only [hparse] at heq
        cases heq
      | some b =>
        simp only [hparse] at heq
        cases heq

section Answers

omit [Keccak] [Pb hiPb.ExecBlk] [Pb hiPb.TxOnBlkInfo] in
/-- The answers are the same, or both are that there is no such transaction. -/
def SameAnswer (h₁ h₂ : Bytes) (a₁ a₂ : Option (Bool × Bytes)) : Prop :=
  a₁ = a₂ ∨ (a₁ = some (false, notFound h₁) ∧ a₂ = some (false, notFound h₂))

variable [BoostJsonSerialize] [BoostJson]

/-- A query that is answered for a place in the database. -/
def Located (query : StringMap → Bytes → Option (Bool × Bytes)) : Prop :=
  ∀ db h msg, query db h = some (false, msg) ↔ locate db h = .error msg

omit [BoostJson] in
theorem located_getTx : Located getTx := by
  intro db h msg
  rw [getTx]
  cases locate db h with
  | error msg' => simp
  | ok r =>
    refine iff_of_false (fun hq => ?_) (fun herr => ?_)
    · obtain ⟨tx, -, htrue⟩ := Option.bind_eq_some_iff.1 hq
      cases htrue
    · cases herr

theorem located_getReceipt : Located getReceipt := by
  intro db h msg
  rw [getReceipt]
  cases locate db h with
  | error msg' => simp
  | ok r =>
    refine iff_of_false (fun hq => ?_) (fun herr => ?_)
    · obtain ⟨tr, -, hq⟩ := Option.bind_eq_some_iff.1 hq
      obtain ⟨s, -, htrue⟩ := Option.bind_eq_some_iff.1 hq
      cases htrue
    · cases herr

section Queries

variable {query : StringMap → Bytes → Option (Bool × Bytes)} (hquery : Located query)
include hquery

omit [BoostJsonSerialize] [BoostJson] in
theorem Located.eq_notFound (hdb : TxKeys db) (hH : fromHex 32 h = some H)
    (hmissing : h ≠ hashToString H ∨ db.lookup (txKey H) = none) :
    query db h = some (false, notFound h) := by
  rw [hquery, locate, getTxOnBlkInfo_of_missing hdb hH hmissing]
  rfl

omit [BoostJsonSerialize] [BoostJson] in
theorem Located.ne_notFound {o : Bytes} (ho : db.lookup (txKey H) = some o) (h' : Bytes) :
    query db (hashToString H) ≠ some (false, notFound h') := fun heq =>
  locate_ne_notFound ho h' ((hquery db _ _).1 heq)

omit [BoostJsonSerialize] [BoostJson] in
/-- **Two spellings of a hash.**  The answers are the same for the spellings if and only if these
are the same, or there is nothing to be found, or neither is that of `commitBlk`. -/
theorem Located.sameAnswer_iff (hdb : TxKeys db) {h₁ h₂ : Bytes} (hH₁ : fromHex 32 h₁ = some H)
    (hH₂ : fromHex 32 h₂ = some H) :
    SameAnswer h₁ h₂ (query db h₁) (query db h₂) ↔
      h₁ = h₂ ∨ db.lookup (txKey H) = none ∨ (h₁ ≠ hashToString H ∧ h₂ ≠ hashToString H) := by
  have hmissing₁ := hquery.eq_notFound hdb hH₁
  have hmissing₂ := hquery.eq_notFound hdb hH₂
  constructor
  · intro hsame
    by_contra hnot
    push Not at hnot
    obtain ⟨hne, hfound, hspell⟩ := hnot
    obtain ⟨o, ho⟩ := Option.ne_none_iff_exists'.1 hfound
    -- one of them is found and the other one is not
    by_cases h : h₁ = hashToString H
    · have hother : query db h₂ = some (false, notFound h₂) :=
        hmissing₂ (.inl fun h' => hne (h.trans h'.symm))
      rw [h] at hsame
      rcases hsame with heq | ⟨heq, -⟩
      · exact hquery.ne_notFound ho h₂ (heq.trans hother)
      · exact hquery.ne_notFound ho _ heq
    · have hother := hmissing₁ (.inl h)
      rw [hspell h] at hsame
      rcases hsame with heq | ⟨-, heq⟩
      · exact hquery.ne_notFound ho h₁ (heq.symm.trans hother)
      · exact hquery.ne_notFound ho _ heq
  · rintro (rfl | hnone | ⟨hspell₁, hspell₂⟩)
    · exact .inl rfl
    · exact .inr ⟨hmissing₁ (.inr hnone), hmissing₂ (.inr hnone)⟩
    · exact .inr ⟨hmissing₁ (.inl hspell₁), hmissing₂ (.inl hspell₂)⟩

omit [BoostJsonSerialize] [BoostJson] in
/-- The answers are the same to the letter only for the same spelling, as it is in the answer. -/
theorem Located.eq_iff (hdb : TxKeys db) {h₁ h₂ : Bytes} (hH₁ : fromHex 32 h₁ = some H)
    (hH₂ : fromHex 32 h₂ = some H) : query db h₁ = query db h₂ ↔ h₁ = h₂ := by
  refine ⟨fun heq => ?_, fun heq => heq ▸ rfl⟩
  rcases (hquery.sameAnswer_iff hdb hH₁ hH₂).1 (.inl heq) with heq' | hnone | ⟨hspell₁, hspell₂⟩
  · exact heq'
  · rw [hquery.eq_notFound hdb hH₁ (.inr hnone), hquery.eq_notFound hdb hH₂ (.inr hnone)] at heq
    exact notFound_injective (Prod.mk.inj (Option.some.inj heq)).2
  · rw [hquery.eq_notFound hdb hH₁ (.inl hspell₁), hquery.eq_notFound hdb hH₂ (.inl hspell₂)] at heq
    exact notFound_injective (Prod.mk.inj (Option.some.inj heq)).2

end Queries

/-- **When the spelling makes no difference.**  In every database that any blocks have been
committed to, with success or without, for any two texts that are decoded as the same hash: the
queries for the transaction and the receipt have the same answers, or both say that there is no such
transaction, if and only if the texts are the same, or no place of the hash is stored, or neither
text is the one that `commitBlk` writes.  Letter by letter the answers are the same only for the
same text. -/
theorem spelling_iff [Pb hiPb.Acn] (E : ITxExecutable) (v : Option (Tx → Bool)) (st : StateDB)
    (answers : Stream' Bool) (bs : List ExecBlk) (h₁ h₂ : Bytes) (H : Hash256)
    (hH₁ : fromHex 32 h₁ = some H) (hH₂ : fromHex 32 h₂ = some H) :
    let db := (bs.foldl (fun w b => ((⟨answering, E, v⟩ : BlkExecutor _).commitBlk w b).1)
      (⟨st, ∅⟩, answers)).1.chainDB
    ((SameAnswer h₁ h₂ (getTx db h₁) (getTx db h₂) ∧
        SameAnswer h₁ h₂ (getReceipt db h₁) (getReceipt db h₂)) ↔
      h₁ = h₂ ∨ db.lookup (txKey H) = none ∨ (h₁ ≠ hashToString H ∧ h₂ ≠ hashToString H)) ∧
    ((getTx db h₁ = getTx db h₂ ∧ getReceipt db h₁ = getReceipt db h₂) ↔ h₁ = h₂) := by
  intro db
  have hdb : TxKeys db := TxKeys.empty.foldl_commitBlk (w := (⟨st, ∅⟩, answers)) bs
  rw [located_getTx.sameAnswer_iff hdb hH₁ hH₂, located_getReceipt.sameAnswer_iff hdb hH₁ hH₂,
    located_getTx.eq_iff hdb hH₁ hH₂, located_getReceipt.eq_iff hdb hH₁ hH₂, and_self_iff,
    and_self_iff]
  exact ⟨.rfl, .rfl⟩

end Answers

omit [Keccak] [Pb hiPb.ExecBlk] [Pb hiPb.TxOnBlkInfo] in
/-- The hash of a transaction that has been committed, with `0x` and without. -/
theorem spelling_iff_committed :
    let _ : Keccak := Sponge.keccak
    let _ : HashOrder Bytes32 := .insertion Bytes32
    let _ : Pb hiPb.Acn := Wire.pb hiPb.Acn
    let _ : Pb hiPb.TxOnBlkInfo := Wire.pb hiPb.TxOnBlkInfo
    let _ : Pb hiPb.ExecBlk := Wire.pb hiPb.ExecBlk
    let _ : BoostJson := ⟨fun _ => none, fun _ => none⟩
    let _ : BoostJsonSerialize := JsonText.serialize
    let tx := Tx.create (makeAddress 1) (makeAddress 2) [] 7 0
    let b : ExecBlk :=
      { number := 0, parentHash := .zero 32, txs := [tx], stateChanges := [[]],
        txReceipts := [.succeeded [] .evm], length_stateChanges := rfl, length_txReceipts := rfl }
    let db := ([b].foldl
      (fun w b => ((⟨answering, BlkExecutor.counter, none⟩ : BlkExecutor _).commitBlk w b).1)
      (⟨∅, ∅⟩, .const true)).1.chainDB
    let h₁ := hashToString tx.hash
    let h₂ := ascii "0x" ++ hashToString tx.hash
    ((SameAnswer h₁ h₂ (getTx db h₁) (getTx db h₂) ∧
        SameAnswer h₁ h₂ (getReceipt db h₁) (getReceipt db h₂)) ↔
      h₁ = h₂ ∨ db.lookup (txKey tx.hash) = none ∨
        (h₁ ≠ hashToString tx.hash ∧ h₂ ≠ hashToString tx.hash)) ∧
    ((getTx db h₁ = getTx db h₂ ∧ getReceipt db h₁ = getReceipt db h₂) ↔ h₁ = h₂) := by
  intro _ _ _ _ _ _ _ tx b db h₁ h₂
  exact spelling_iff BlkExecutor.counter none ∅ (.const true) [b] h₁ h₂ tx.hash
    (fromHex_hex tx.hash) (fromHex_0x_hex tx.hash)

omit [Keccak] [Pb hiPb.ExecBlk] [Pb hiPb.TxOnBlkInfo] in
/-- A transaction has been committed.  With `0x` in front of its hash it is said not to exist. -/
theorem not_spelling :
    let _ : Keccak := Sponge.keccak
    let _ : HashOrder Bytes32 := .insertion Bytes32
    let _ : Pb hiPb.Acn := Wire.pb hiPb.Acn
    let _ : Pb hiPb.TxOnBlkInfo := Wire.pb hiPb.TxOnBlkInfo
    let _ : Pb hiPb.ExecBlk := Wire.pb hiPb.ExecBlk
    let _ : BoostJson := ⟨fun _ => none, fun _ => none⟩
    let _ : BoostJsonSerialize := JsonText.serialize
    let tx := Tx.create (makeAddress 1) (makeAddress 2) [] 7 0
    let b : ExecBlk :=
      { number := 0, parentHash := .zero 32, txs := [tx], stateChanges := [[]],
        txReceipts := [.succeeded [] .evm], length_stateChanges := rfl, length_txReceipts := rfl }
    let db := ([b].foldl
      (fun w b => ((⟨answering, BlkExecutor.counter, none⟩ : BlkExecutor _).commitBlk w b).1)
      (⟨∅, ∅⟩, .const true)).1.chainDB
    let h₁ := hashToString tx.hash
    let h₂ := ascii "0x" ++ hashToString tx.hash
    (fromHex 32 h₁ = some tx.hash ∧ fromHex 32 h₂ = some tx.hash) ∧
      getTx db h₂ = some (false, notFound h₂) ∧
      ¬(SameAnswer h₁ h₂ (getTx db h₁) (getTx db h₂) ∧
        SameAnswer h₁ h₂ (getReceipt db h₁) (getReceipt db h₂)) := by
  intro _ _ _ _ _ _ _ tx b db h₁ h₂
  have hH₁ : fromHex 32 h₁ = some tx.hash := fromHex_hex tx.hash
  have hH₂ : fromHex 32 h₂ = some tx.hash := fromHex_0x_hex tx.hash
  have hdb : TxKeys db := TxKeys.empty.foldl_commitBlk (w := (⟨∅, ∅⟩, .const true)) [b]
  have hne : h₂ ≠ hashToString tx.hash := fun h => by
    have hlen := congrArg List.length h
    have htwo : (ascii "0x").length = 2 := rfl
    rw [List.length_append, htwo] at hlen
    omega
  have hfound : db.lookup (txKey tx.hash) ≠ none := by
    have hwrites := History.commitBlk_answering (E := BlkExecutor.counter) (v := none)
      (w := ⟨∅, ∅⟩) (b := b) (h := (rfl : ((⟨answering, BlkExecutor.counter, none⟩ :
        BlkExecutor _).commitBlk (⟨∅, ∅⟩, .const true) b).2 = true))
    have hdb' : db = Writes.apply ∅ _ := congrArg (fun r => r.1.1.chainDB) hwrites
    rw [Ne, Finmap.lookup_eq_none, not_not, hdb', Writes.mem_apply]
    exact .inr List.mem_cons_self
  refine ⟨⟨hH₁, hH₂⟩, located_getTx.eq_notFound hdb hH₂ (.inl hne), ?_⟩
  rw [located_getTx.sameAnswer_iff hdb hH₁ hH₂, located_getReceipt.sameAnswer_iff hdb hH₁ hH₂,
    and_self_iff]
  rintro (heq | hnone | ⟨hspell, -⟩)
  · exact hne heq.symm
  · exact hfound hnone
  · exact hspell rfl

end Rpc

end WeakChain
