import WeakChain.Codec.ExecBlk

/-!
# The latest blocks over RPC

`GET /get_latest_Blk?n=N` shows the last `N` blocks of the chain, the latest one first, or all of
them if there are not as many.  The numbers are `int`s, so an expression may overflow (`intExpr`);
it does not on a chain whose latest block has a number below the largest `int`
(`Rpc.getLatestBlk_of_storedUpTo`).
-/

namespace WeakChain

namespace Rpc

/-- The value of an expression of type `int`; nothing if it overflows. -/
def intExpr (x : ℤ) : Option ℤ := if -2147483648 ≤ x ∧ x ≤ 2147483647 then some x else none

theorem intExpr_of_nat {n : ℕ} (h : n < 2 ^ 31) : intExpr n = some (n : ℤ) := if_pos (by omega)

variable [Keccak] [Pb hiPb.ExecBlk] [BoostJson] [BoostJsonSerialize]

/-- The loop of `get_latest_Blk` from `i` on, when `k` rounds are left: the truth value and the
answer, or nothing if an expression overflows or a block cannot be put into JSON. -/
def latestLoop (db : StringMap) (M : ℤ) : ℕ → ℤ → List Json → Option (Bool × Bytes)
  | 0, _, a => some (true, BoostJsonSerialize.serialize (.array a))
  | k + 1, i, a => do
    let bn ← intExpr (M - i)
    match getBlkFromChain db (.ofInt bn) with
    | .error msg => some (false, msg)
    | .ok b => do
      let v ← b.toJson
      let i ← intExpr (i + 1)
      latestLoop db M k i (a ++ [v])

/-- `Rpc::get_latest_Blk`. -/
def getLatestBlk (db : StringMap) (N : Int32) : Option (Bool × Bytes) :=
  if N = 0 then some (true, BoostJsonSerialize.serialize (.array []))
  else if N < 0 then
    some (false, ascii "You cannot get latest <negative number=" ++ decimalInt N ++ ascii "> Blks")
  else
    match db.lookup blkNumberKey with
    | none => some (true, BoostJsonSerialize.serialize (.array []))
    | some r =>
      match parsePositiveInt r with
      | .error msg => some (false, msg)
      | .ok M => do
        let next ← intExpr (M + 1)
        let N := if N.toInt > next then next else N.toInt
        latestLoop db M N.toNat 0 []

omit [BoostJsonSerialize] in
/-- The blocks `0` to `M` are stored, with their numbers, and can be shown, and `M` is the number of
the latest one. -/
structure StoredUpTo (db : StringMap) (M : ℕ) : Prop where
  number : db.lookup blkNumberKey = some (decimal M)
  blk : ∀ k ≤ M, ∃ b, WeakChain.getBlkFromChain db k = .ok b ∧ b.number.toNat = k ∧
    ∀ r ∈ b.txReceipts, r.Shows

omit [BoostJsonSerialize] in
/-- After the blocks `0` to `n` have been committed, on a storage that may refuse writes, they are
stored. -/
theorem storedUpTo_commitBlks [Pb hiPb.Acn] [Pb hiPb.TxOnBlkInfo]
    (hpb : Pb.ReadsBack hiPb.ExecBlk) (E : ITxExecutable) (v : Option (Tx → Bool)) (st : StateDB)
    (answers : Stream' Bool) (n : ℕ) (bs : List ExecBlk)
    (hnumbers : (bs.map fun b => b.number.toNat) = List.range (n + 1))
    (hok : ((⟨answering, E, v⟩ : BlkExecutor _).commitBlks (⟨st, ∅⟩, answers) bs).2 = true)
    (hshows : ∀ b ∈ bs, ∀ r ∈ b.txReceipts, r.Shows) :
    StoredUpTo
      (((⟨answering, E, v⟩ : BlkExecutor _).commitBlks (⟨st, ∅⟩, answers) bs).1.1.chainDB) n := by
  rw [History.commitBlks_answering hok]
  have hnodup : (bs.map fun b => b.number.toNat).Nodup := hnumbers ▸ List.nodup_range
  constructor
  · obtain ⟨init, last, rfl, rfl, -⟩ := History.exists_concat_of_numbers hnumbers
    exact History.lookup_blkNumberKey answers init last
  · intro k hk
    have hmem : k ∈ bs.map fun b => b.number.toNat := by
      rw [hnumbers, List.mem_range]
      omega
    obtain ⟨b, hb, rfl⟩ := List.mem_map.1 hmem
    exact ⟨_, History.getBlkFromChain_writes hpb answers hnodup hb, rfl, hshows b hb⟩

/-! ### The loop -/

section Loop

variable {db : StringMap} {M : ℕ}

omit [BoostJson] [BoostJsonSerialize] in
theorem getBlkFromChain_ofInt {n : ℕ} (h : n < 2 ^ 31) :
    getBlkFromChain db (.ofInt n) = WeakChain.getBlkFromChain db n := by
  have hint : (Int32.ofInt n).toInt = n := Int32.toInt_ofInt_of_le (by omega) (by omega)
  have hneg : ¬Int32.ofInt n < 0 := by
    rw [Int32.lt_iff_toInt_lt, hint]
    exact not_lt.2 (Int.natCast_nonneg _)
  rw [getBlkFromChain, WeakChain.getBlkFromChain, decimalInt, if_neg hneg, hint,
    Int.natAbs_natCast]

omit [BoostJsonSerialize] in
theorem StoredUpTo.exists_blk (h : StoredUpTo db M) {k : ℕ} (hk : k ≤ M) :
    ∃ b v, WeakChain.getBlkFromChain db k = .ok b ∧ b.number.toNat = k ∧ b.toJson = some v := by
  obtain ⟨b, hb, hnumber, hshows⟩ := h.blk k hk
  obtain ⟨v, hv⟩ := Option.isSome_iff_exists.1 (ExecBlk.Parsed.isSome_toJson_iff.2 hshows)
  exact ⟨b, v, hb, hnumber, hv⟩

/-- The blocks that the loop adds: their numbers go down from `M - i`. -/
theorem latestLoop_of_storedUpTo (h : StoredUpTo db M) (hM : M < 2 ^ 31 - 1) {k i : ℕ}
    (hi : i + k ≤ M + 1) (a : List Json) :
    ∃ (bs : List ExecBlk.Parsed) (vs : List Json), bs.length = k ∧
      (∀ j b, bs[j]? = some b → WeakChain.getBlkFromChain db (M - (i + j)) = .ok b ∧
        b.number.toNat = M - (i + j)) ∧
      bs.mapM ExecBlk.Parsed.toJson = some vs ∧
      latestLoop db M k i a = some (true, BoostJsonSerialize.serialize (.array (a ++ vs))) := by
  induction k generalizing i a with
  | zero => exact ⟨[], [], rfl, nofun, rfl, by rw [List.append_nil]; rfl⟩
  | succ k ih =>
    obtain ⟨b, v, hb, hnumber, hv⟩ := h.exists_blk (Nat.sub_le M i)
    obtain ⟨bs, vs, hlen, hbs, hvs, hloop⟩ := ih (i := i + 1) (by omega) (a ++ [v])
    refine ⟨b :: bs, v :: vs, by rw [List.length_cons, hlen], fun j c hc => ?_, ?_, ?_⟩
    · cases j with
      | zero =>
        obtain rfl := Option.some.inj hc
        exact ⟨hb, hnumber⟩
      | succ j =>
        have hj := hbs j c hc
        rwa [Nat.add_assoc, Nat.add_comm 1 j] at hj
    · rw [List.mapM_cons, hv, hvs]
      rfl
    · have hsub : intExpr ((M : ℤ) - i) = some ((M - i : ℕ) : ℤ) := by
        rw [← Int.ofNat_sub (by omega)]
        exact intExpr_of_nat (by omega)
      have hsucc : intExpr ((i : ℤ) + 1) = some ((i + 1 : ℕ) : ℤ) :=
        intExpr_of_nat (n := i + 1) (by omega)
      rw [List.append_assoc] at hloop
      simp only [latestLoop, Option.bind_eq_bind, hsub, Option.bind_some,
        getBlkFromChain_ofInt (show M - i < 2 ^ 31 by omega), hb, hv, hsucc]
      exact hloop

end Loop

/-- **The latest blocks.**  For every count that is not negative: on an empty chain the answer is an
empty array, and on a chain of the blocks `0` to `M`, where `M` is less than the largest `int`, it
is the array of as many blocks as were asked for, or of all `M + 1` if that is less, from number `M`
downwards.  Nothing overflows. -/
theorem getLatestBlk_of_storedUpTo (db : StringMap) (N : Int32) (hN : 0 ≤ N) :
    (db.lookup blkNumberKey = none →
      getLatestBlk db N = some (true, BoostJsonSerialize.serialize (.array []))) ∧
    ∀ M < 2 ^ 31 - 1, StoredUpTo db M →
      ∃ (bs : List ExecBlk.Parsed) (vs : List Json), bs.length = min N.toInt.toNat (M + 1) ∧
        (∀ j b, bs[j]? = some b → WeakChain.getBlkFromChain db (M - j) = .ok b ∧
          b.number.toNat = M - j) ∧
        bs.mapM ExecBlk.Parsed.toJson = some vs ∧
        getLatestBlk db N = some (true, BoostJsonSerialize.serialize (.array vs)) := by
  have hneg : ¬N < 0 := Int32.not_lt.2 hN
  constructor
  · intro hempty
    rw [getLatestBlk, hempty, if_neg hneg]
    split_ifs <;> rfl
  · intro M hM h
    by_cases hzero : N = 0
    · exact ⟨[], [], by simp [hzero], nofun, rfl, by rw [getLatestBlk, if_pos hzero]⟩
    · have hN' : 0 ≤ N.toInt := Int32.le_iff_toInt_le.1 hN
      have hparse : parsePositiveInt (decimal M) = .ok M := by
        rw [parsePositiveInt, lexicalCastInt_decimal (by omega)]
        simp
      have hnext : intExpr ((M : ℤ) + 1) = some ((M + 1 : ℕ) : ℤ) :=
        intExpr_of_nat (n := M + 1) (by omega)
      obtain ⟨bs, vs, hlen, hbs, hvs, hloop⟩ :=
        latestLoop_of_storedUpTo (k := min N.toInt.toNat (M + 1)) (i := 0) h hM (by omega) []
      refine ⟨bs, vs, hlen, by simpa using hbs, hvs, ?_⟩
      have hrounds : (if N.toInt > ((M + 1 : ℕ) : ℤ) then ((M + 1 : ℕ) : ℤ) else N.toInt).toNat =
          min N.toInt.toNat (M + 1) := by
        split_ifs <;> omega
      simp only [getLatestBlk, if_neg hzero, if_neg hneg, h.number, hparse, hnext,
        Option.bind_eq_bind, Option.bind_some, hrounds]
      exact hloop

omit [Keccak] [Pb hiPb.ExecBlk] [BoostJson] [BoostJsonSerialize] in
/-- Two blocks that have been committed, when five are asked for. -/
theorem getLatestBlk_of_storedUpTo_two :
    let _ : Keccak := Sponge.keccak
    let _ : HashOrder Bytes32 := .insertion Bytes32
    let _ : Pb hiPb.Acn := Wire.pb hiPb.Acn
    let _ : Pb hiPb.TxOnBlkInfo := Wire.pb hiPb.TxOnBlkInfo
    let _ : Pb hiPb.ExecBlk := Wire.pb hiPb.ExecBlk
    let _ : BoostJson := ⟨fun _ => none, fun _ => none⟩
    let _ : BoostJsonSerialize := JsonText.serialize
    let tx (n : UInt64) := Tx.create (makeAddress 1) (makeAddress 2) [] n 0
    let b (n : UInt64) := (BlkExecutor.inRam BlkExecutor.counter).executeBlk ⟨∅, ∅⟩
      ⟨n, .zero 32, [tx n]⟩
    let db := ((⟨answering, BlkExecutor.counter, none⟩ : BlkExecutor _).commitBlks
      (⟨∅, ∅⟩, .const true) [b 0, b 1]).1.1.chainDB
    ∃ (bs : List ExecBlk.Parsed) (vs : List Json), bs.length = 2 ∧
      (∀ j b, bs[j]? = some b → WeakChain.getBlkFromChain db (1 - j) = .ok b ∧
        b.number.toNat = 1 - j) ∧
      bs.mapM ExecBlk.Parsed.toJson = some vs ∧
      getLatestBlk db 5 = some (true, BoostJsonSerialize.serialize (.array vs)) := by
  intro _ _ _ _ _ _ _ tx b db
  have hstored : StoredUpTo db 1 := by
    refine storedUpTo_commitBlks (Wire.readsBack hiPb.ExecBlk) BlkExecutor.counter none ∅
      (.const true) 1 [b 0, b 1] rfl rfl fun c hc r hr htype => ?_
    -- the type of the receipts is `evm`
    rcases List.mem_cons.1 hc with rfl | hc
    · obtain rfl := List.mem_singleton.1 hr
      cases htype
    · obtain rfl := List.mem_singleton.1 hc
      obtain rfl := List.mem_singleton.1 hr
      cases htype
  exact (getLatestBlk_of_storedUpTo db 5 (by decide)).2 1 (by decide) hstored

end Rpc

end WeakChain
