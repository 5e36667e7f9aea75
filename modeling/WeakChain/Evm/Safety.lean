import WeakChain.Evm.Baseline
import WeakChain.Lib.Keccak

/-!
# The execution of legacy code is defined

The interpreter checks little while it runs: it relies on the analysis of the code, on the table of
stack heights, and on the host.  Here it is shown that it may: if the host answers as expected
(`Reliable`), the execution of legacy code runs into no `Fault` and returns a result, with no more
gas than it was given and with a refund that is not too large (`defined_of_legacyCode`).  A refund
is bounded by the gas that has been used for it, so the gas must not be too much (`Fits`).

The code must not contain the instructions that came with the other code format (`Plain`).  Before
`cancun` they are undefined, and nothing is asked of the code.  But `execute` is always called with
`prague`, where they are defined in legacy code too: `RETF` reads below the bottom of the call stack
there (`exists_fault_of_retf`).
-/

namespace WeakChain

namespace Evm

/-! ### What is relied on -/

/-- What is refunded for a unit of gas, at most.  The last revision refunds nothing. -/
def refundRate (rev : Revision) : ℕ := if rev = .prague then 0 else 600

/-- Gas with which no refund gets too large.  The cheapest call costs 40. -/
structure Fits (rev : Revision) (gas : ℤ) : Prop where
  nonneg : 0 ≤ gas
  refund_lt : refundRate rev * (gas + 40) < 2 ^ 63

/-- A refund that is not too large for the gas that has been used. -/
structure Refunds (rev : Revision) (used : ℤ) (refund : Int64) : Prop where
  nonneg : 0 ≤ refund.toInt
  le : refund.toInt ≤ refundRate rev * used

/-- Answers that the interpreter relies on. -/
def Reliable (rev : Revision) (q : HostCall) (x : q.Answer) : Prop :=
  match q with
  | .call msg => 0 ≤ Result.gasLeft x ∧ Result.gasLeft x ≤ msg.gas ∧
      Refunds rev (msg.gas.toInt - Int64.toInt (Result.gasLeft x) + 40) (Result.gasRefund x)
  | .copyCode _ _ bufferSize => @List.length UInt8 x ≤ bufferSize
  | .getTxContext => 0 ≤ TxContext.blockNumber x
  | _ => True

/-- There is no output yet. -/
def NoOutput (s : ExecutionState) : Prop := s.outputSize = 0 ∧ s.outputOffset = 0

/-- A state in which the interpreter is not interrupted. -/
structure Sane (s : ExecutionState) : Prop where
  gas_nonneg : 0 ≤ s.gasLeft
  gas_lt : s.gasLeft < 2 ^ 63
  memory_words : s.memory.length % 32 = 0
  memory_le : s.memory.length ≤ 2 ^ 33
  tx : 0 ≤ s.tx.blockNumber
  output : NoOutput s

/-- The end of an execution: there is a result, no more gas than there was, and no refund that is
too large. -/
structure Ended (rev : Revision) (limit : ℤ) (s : ExecutionState) : Prop where
  gas : s.status = statusSuccess ∨ s.status = statusRevert → 0 ≤ s.gasLeft ∧ s.gasLeft ≤ limit
  refund : s.status = statusSuccess → Refunds rev (limit - s.gasLeft + 40) s.gasRefund
  noOutput : s.outputSize = 0 → s.outputOffset = 0
  output : s.outputSize ≠ 0 → s.outputOffset + s.outputSize ≤ s.memory.length

/-- Messages are called with gas that is not too much. -/
def HasGas (rev : Revision) : HostCall → Prop
  | .call msg => Fits rev msg.gas.toInt
  | _ => True

/-- No `Fault`, no more gas than there was, and no refund that is too large, if the answers can be
relied on. -/
def defined (rev : Revision) (gas : ℤ) : Dialogue.Terms HostCall HostCall.Answer Exit where
  question := HasGas rev
  answer := Reliable rev
  exit
    | .halt s => Ended rev gas s
    | .fault _ => False

/-- The gas that is left, and what the memory has cost. -/
def worth (s : ExecutionState) : ℤ := s.gasLeft + memoryCost (s.memory.length / 32)

/-- What has been done has been paid for, the growth of the memory in particular. -/
structure Spent (s s' : ExecutionState) : Prop where
  sane : Sane s'
  memory_le : s.memory.length ≤ s'.memory.length
  worth_le : worth s' ≤ worth s

/-- A part of an instruction has been paid for, and its memory is there. -/
structure Paid (s s' : ExecutionState) : Prop extends Spent s s' where
  stack : s'.stack = s.stack
  codeIt : s'.codeIt = s.codeIt
  returnData : s'.returnData = s.returnData
  gasRefund : s'.gasRefund = s.gasRefund

/-- What an instruction leaves that changes the height of the stack, and after which the next one
is executed. -/
structure Worked (s : ExecutionState) (change : ℤ) (s' : ExecutionState) : Prop
    extends Spent s s' where
  height : (s'.stack.length : ℤ) = s.stack.length + change
  codeIt : s'.codeIt = s.codeIt
  gasRefund : s'.gasRefund = s.gasRefund

/-- The same for an instruction with a refund, which is not too large for the gas that is no longer
there. -/
structure Settled (rev : Revision) (gas : ℤ) (s : ExecutionState) (change : ℤ)
    (s' : ExecutionState) : Prop extends Spent s s' where
  height : (s'.stack.length : ℤ) = s.stack.length + change
  codeIt : s'.codeIt = s.codeIt
  refund : Refunds rev (gas - s'.gasLeft) s'.gasRefund

/-- The gas and the refunds in the course of an execution: so much has been paid for the instruction
that is executed. -/
structure Ledger (rev : Revision) (gas paid : ℤ) (s : ExecutionState) : Prop where
  fits : Fits rev gas
  gas_le : s.gasLeft ≤ gas
  refund : Refunds rev (gas - paid - s.gasLeft) s.gasRefund

/-! ### The parts of instructions -/

section Parts

variable {rev : Revision} {gas : ℤ} {s s₁ s₂ : ExecutionState}

theorem Sane.of_eq (hs : Sane s) (hgas : s₁.gasLeft = s.gasLeft) (hmem : s₁.memory = s.memory)
    (htx : s₁.tx = s.tx) (hsize : s₁.outputSize = s.outputSize)
    (hoffset : s₁.outputOffset = s.outputOffset) : Sane s₁ :=
  ⟨hgas ▸ hs.gas_nonneg, hgas ▸ hs.gas_lt, hmem ▸ hs.memory_words, hmem ▸ hs.memory_le,
    htx ▸ hs.tx, hsize ▸ hs.output.1, hoffset ▸ hs.output.2⟩

theorem memoryCost_mono {m n : ℕ} (h : m ≤ n) : memoryCost m ≤ memoryCost n := by
  unfold memoryCost
  gcongr

theorem Spent.gas_le (h : Spent s s₁) : s₁.gasLeft ≤ s.gasLeft := by
  have hworth := h.worth_le
  have hcost := memoryCost_mono (Nat.div_le_div_right (c := 32) h.memory_le)
  unfold worth at hworth
  omega

theorem Sane.spent (hs : Sane s) : Spent s s := ⟨hs, le_rfl, le_rfl⟩

/-- Only the gas and the memory matter. -/
theorem Spent.of_eq (h : Spent s s₁) (hgas : s₂.gasLeft = s₁.gasLeft)
    (hmem : s₂.memory = s₁.memory) (htx : s₂.tx = s₁.tx) (hsize : s₂.outputSize = s₁.outputSize)
    (hoffset : s₂.outputOffset = s₁.outputOffset) : Spent s s₂ where
  sane := h.sane.of_eq hgas hmem htx hsize hoffset
  memory_le := hmem ▸ h.memory_le
  worth_le := by rw [worth, hgas, hmem]; exact h.worth_le

theorem Spent.of_eq_left (h : Spent s₁ s₂) (hgas : s₁.gasLeft = s.gasLeft)
    (hmem : s₁.memory = s.memory) : Spent s s₂ where
  sane := h.sane
  memory_le := hmem ▸ h.memory_le
  worth_le := h.worth_le.trans_eq (by rw [worth, worth, hgas, hmem])

theorem Spent.trans (h : Spent s s₁) (h' : Spent s₁ s₂) : Spent s s₂ :=
  ⟨h'.sane, h.memory_le.trans h'.memory_le, h'.worth_le.trans h.worth_le⟩

theorem Sane.paid (hs : Sane s) : Paid s s := ⟨hs.spent, rfl, rfl, rfl, rfl⟩

theorem Paid.trans (h : Paid s s₁) (h' : Paid s₁ s₂) : Paid s s₂ where
  toSpent := h.toSpent.trans h'.toSpent
  stack := h'.stack.trans h.stack
  codeIt := h'.codeIt.trans h.codeIt
  returnData := h'.returnData.trans h.returnData
  gasRefund := h'.gasRefund.trans h.gasRefund

/-- The end of an instruction: the stack is what it has to be. -/
theorem Paid.worked (h : Paid s s₁) {st : List Word} {change : ℤ}
    (hst : (st.length : ℤ) = s.stack.length + change) :
    Worked s change { s₁ with stack := st } where
  toSpent := h.toSpent.of_eq rfl rfl rfl rfl rfl
  height := hst
  codeIt := h.codeIt
  gasRefund := h.gasRefund

theorem Paid.then {change : ℤ} (h : Paid s s₁) (h' : Worked s₁ change s₂) : Worked s change s₂ where
  toSpent := h.toSpent.trans h'.toSpent
  height := by rw [h'.height, h.stack]
  codeIt := h'.codeIt.trans h.codeIt
  gasRefund := h'.gasRefund.trans h.gasRefund

theorem meets_halt {α : Type} {post : α → Prop} {status : StatusCode}
    (hfails : status ≠ statusSuccess ∧ status ≠ statusRevert) (hs : NoOutput s) :
    (halt status s).Meets (defined rev gas) post :=
  ⟨fun h => (h.elim hfails.1 hfails.2).elim, fun h => (hfails.1 h).elim, fun _ => hs.2,
    fun h => absurd hs.1 h⟩

theorem meets_int64 {x : ℤ} (h : -2 ^ 63 ≤ x ∧ x < 2 ^ 63) :
    (int64 x).Meets (defined rev gas) fun y => y = x := by
  rw [int64, if_pos h]
  rfl

theorem meets_orFault_of_eq {α : Type} {f : Fault} {o : Option α} {a : α} (h : o = some a) :
    (orFault f o).Meets (defined rev gas) fun b => b = a := by
  rw [h]
  rfl

theorem Sane.spend (hs : Sane s) {g : ℤ} (hg : 0 ≤ g) (hle : g ≤ s.gasLeft) :
    Paid s { s with gasLeft := g } :=
  ⟨⟨⟨hg, hle.trans_lt hs.gas_lt, hs.memory_words, hs.memory_le, hs.tx, hs.output⟩, le_rfl,
    add_le_add_left hle _⟩, rfl, rfl, rfl, rfl⟩

theorem meets_charge (hs : Sane s) {cost : ℕ} (hcost : cost ≤ 2 ^ 62) :
    (charge cost s).Meets (defined rev gas) fun s' =>
      Paid s s' ∧ s'.gasLeft = s.gasLeft - cost ∧ s'.memory = s.memory := by
  have hgas := hs.gas_nonneg
  have hlt := hs.gas_lt
  refine (meets_int64 (by omega)).bind ?_
  rintro _ rfl
  split
  · exact meets_halt (by decide) hs.output
  · next hpaid => exact ⟨hs.spend (not_lt.1 hpaid) (by omega), rfl, rfl⟩

theorem meets_push (hs : Sane s) (hroom : s.stack.length < stackLimit) (x : Word) :
    (push x s).Meets (defined rev gas) (Worked s 1) := by
  rw [push, if_pos hroom]
  exact hs.paid.worked (by simp)

/-! Refunds -/

theorem Refunds.mono {used used' : ℤ} {refund : Int64} (h : Refunds rev used refund)
    (hle : used ≤ used') : Refunds rev used' refund :=
  ⟨h.nonneg, h.le.trans (mul_le_mul_of_nonneg_left hle (Int.natCast_nonneg _))⟩

theorem Fits.mono {gas' : ℤ} (h : Fits rev gas) (hnonneg : 0 ≤ gas') (hle : gas' ≤ gas) :
    Fits rev gas' :=
  ⟨hnonneg, lt_of_le_of_lt (mul_le_mul_of_nonneg_left (by omega) (Int.natCast_nonneg _))
    h.refund_lt⟩

theorem Ledger.mono {paid paid' : ℤ} (h : Ledger rev gas paid s) (hle : paid' ≤ paid) :
    Ledger rev gas paid' s :=
  ⟨h.fits, h.gas_le, h.refund.mono (by omega)⟩

/-- Less gas, and nothing has been refunded. -/
theorem Ledger.spend {paid : ℤ} (h : Ledger rev gas paid s) (hgas : s₁.gasLeft ≤ s.gasLeft)
    (hrefund : s₁.gasRefund = s.gasRefund) : Ledger rev gas paid s₁ :=
  ⟨h.fits, hgas.trans h.gas_le, hrefund ▸ h.refund.mono (by omega)⟩

theorem Ledger.paid {paid : ℤ} (h : Ledger rev gas paid s) (h' : Paid s s₁) :
    Ledger rev gas paid s₁ :=
  h.spend h'.gas_le h'.gasRefund

theorem Worked.settled {change : ℤ} (h : Worked s change s₁) (hledger : Ledger rev gas 0 s) :
    Settled rev gas s change s₁ where
  toSpent := h.toSpent
  height := h.height
  codeIt := h.codeIt
  refund := by simpa using (hledger.spend h.gas_le h.gasRefund).refund

/-- A refund that is not too large for some more gas. -/
theorem meets_addRefund {α : Type} {post : α → Prop} {used refund : ℤ} (hfits : Fits rev gas)
    (h : Refunds rev used s.gasRefund) (more : ℤ) (hnonneg : 0 ≤ refund)
    (hle : refund ≤ refundRate rev * more) (hused : used + more ≤ gas + 40)
    {k : ExecutionState → Act α} (hk : ∀ r, Refunds rev (used + more) r →
      (k { s with gasRefund := r }).Meets (defined rev gas) post) :
    (addRefund refund s >>= k).Meets (defined rev gas) post := by
  have hsum : s.gasRefund.toInt + refund ≤ refundRate rev * (used + more) := by
    rw [mul_add]
    exact add_le_add h.le hle
  have hlt : (refundRate rev : ℤ) * (used + more) < 2 ^ 63 :=
    lt_of_le_of_lt (mul_le_mul_of_nonneg_left hused (Int.natCast_nonneg _)) hfits.refund_lt
  have hnonneg' := h.nonneg
  rw [addRefund, int64, if_pos (by omega)]
  refine hk _ ⟨?_, ?_⟩ <;> rw [Int64.toInt_ofInt_of_le (by omega) (by omega)]
  · omega
  · exact hsum

/-! The memory -/

theorem memoryCost_le {n : ℕ} (h : n ≤ 2 ^ 28) : memoryCost n ≤ 2 ^ 60 :=
  (memoryCost_mono h).trans (by decide)

theorem numWords_le_of_le {n : ℕ} (h : n ≤ 2 ^ 33) : numWords n ≤ 2 ^ 28 := by
  unfold numWords
  omega

theorem numWords_le {n : ℕ} (h : n ≤ maxBufferSize) : numWords n ≤ 2 ^ 28 :=
  numWords_le_of_le (h.trans (by decide))

/-- The memory grows to the next full word, if it can be paid for. -/
theorem meets_growMemory (hs : Sane s) {n : ℕ} (hn : n ≤ 2 ^ 33) (hlt : s.memory.length < n) :
    (growMemory n s).Meets (defined rev gas) fun s' =>
      NoOutput s' ∧ (0 ≤ s'.gasLeft → Paid s s' ∧ n ≤ s'.memory.length) := by
  have hgas := hs.gas_nonneg
  have hgas' := hs.gas_lt
  have hwords : numWords n = (n + 31) / 32 := rfl
  have hmem := hs.memory_words
  have hmono : memoryCost (s.memory.length / 32) ≤ memoryCost (numWords n) :=
    memoryCost_mono (by omega)
  have hcost := memoryCost_le (numWords_le_of_le hn)
  refine (meets_int64 (by omega)).bind ?_
  rintro _ rfl
  split
  · next hpaid =>
    rw [grow, if_pos ⟨by omega, by dsimp only; omega⟩]
    have hlen : (s.memory ++ List.replicate (numWords n * 32 - s.memory.length) 0).length =
        numWords n * 32 := by
      rw [List.length_append, List.length_replicate]
      omega
    have hworth : worth
        { s with
          gasLeft := s.gasLeft - (memoryCost (numWords n) - memoryCost (s.memory.length / 32))
          memory := s.memory ++ List.replicate (numWords n * 32 - s.memory.length) 0 } ≤
        worth s := by
      rw [worth, worth, hlen, Nat.mul_div_cancel _ (by norm_num)]
      dsimp only
      omega
    refine ⟨hs.output, fun _ => ⟨⟨⟨⟨hpaid, by dsimp only; omega, ?_, ?_, hs.tx, hs.output⟩,
      ?_, hworth⟩, rfl, rfl, rfl, rfl⟩, ?_⟩⟩
    all_goals
      dsimp only
      rw [hlen]
      omega
  · next hpaid => exact ⟨hs.output, fun h => absurd h hpaid⟩

theorem toSize_le_of_not_exceedsBuffer {x : Word} (h : exceedsBuffer x = false) :
    Intx.toSize x ≤ maxBufferSize := by
  rw [exceedsBuffer, Bool.or_eq_false_iff, decide_eq_false_iff_not, not_lt] at h
  exact h.2

theorem meets_checkMemorySize (hs : Sane s) (offset : Word) {n : ℕ} (hn : n ≤ maxBufferSize) :
    (checkMemorySize offset n s).Meets (defined rev gas) fun s' =>
      Paid s s' ∧ Intx.toSize offset + n ≤ s'.memory.length := by
  unfold checkMemorySize
  split
  · exact meets_halt (by decide) hs.output
  · next hoffset =>
    have hoffset := toSize_le_of_not_exceedsBuffer (Bool.eq_false_iff.2 hoffset)
    have hmax : maxBufferSize = 2 ^ 32 - 1 := rfl
    have hgrown : (if s.memory.length < Intx.toSize offset + n then
          growMemory (Intx.toSize offset + n) s else .ret s).Meets (defined rev gas) fun s' =>
        NoOutput s' ∧
          (0 ≤ s'.gasLeft → Paid s s' ∧ Intx.toSize offset + n ≤ s'.memory.length) := by
      split
      · next hlt => exact meets_growMemory hs (by omega) hlt
      · next hle => exact ⟨hs.output, fun _ => ⟨hs.paid, not_lt.1 hle⟩⟩
    refine hgrown.ite_bind fun s' h => ?_
    dsimp only
    split
    · next hpaid => exact h.2 hpaid
    · exact meets_halt (by decide) h.1

theorem meets_checkMemory (hs : Sane s) (offset size : Word) :
    (checkMemory offset size s).Meets (defined rev gas) fun s' =>
      Paid s s' ∧ Intx.toSize size ≤ maxBufferSize ∧
        (0 < Intx.toSize size → Intx.toSize offset + Intx.toSize size ≤ s'.memory.length) := by
  unfold checkMemory
  split
  · next hzero =>
    subst hzero
    have hsize : Intx.toSize (0 : Word) = 0 := rfl
    exact ⟨hs.paid, by rw [hsize]; exact Nat.zero_le _, fun h => absurd hsize h.ne'⟩
  · split
    · exact meets_halt (by decide) hs.output
    · next hsize =>
      have hle := toSize_le_of_not_exceedsBuffer (Bool.eq_false_iff.2 hsize)
      exact (meets_checkMemorySize hs offset hle).imp fun s' h => ⟨h.1, hle, fun _ => h.2⟩

theorem meets_readMemory {offset n : ℕ} (h : offset + n ≤ s.memory.length) :
    (readMemory offset n s).Meets (defined rev gas) fun _ => True := by
  rw [readMemory, if_pos h]
  trivial

theorem meets_readMemory? {offset n : ℕ} (h : 0 < n → offset + n ≤ s.memory.length) :
    (readMemory? offset n s).Meets (defined rev gas) fun _ => True := by
  unfold readMemory?
  split
  · next hn => exact meets_readMemory (h hn)
  · trivial

theorem length_overwrite {m : Bytes} {offset : ℕ} {bs : Bytes} (h : offset + bs.length ≤ m.length) :
    (overwrite m offset bs).length = m.length := by
  simp only [overwrite, List.length_append, List.length_take, List.length_drop]
  omega

theorem meets_writeMemory (hs : Sane s) {offset : ℕ} {bs : Bytes}
    (h : offset + bs.length ≤ s.memory.length) :
    (writeMemory offset bs s).Meets (defined rev gas) fun s' =>
      Paid s s' ∧ s'.gasLeft = s.gasLeft := by
  rw [writeMemory, if_pos h]
  have hlen := length_overwrite h
  exact ⟨⟨⟨⟨hs.gas_nonneg, hs.gas_lt, by rw [hlen]; exact hs.memory_words,
    by rw [hlen]; exact hs.memory_le, hs.tx, hs.output⟩, hlen.ge,
    by rw [worth, hlen]; exact le_rfl⟩, rfl, rfl, rfl, rfl⟩, rfl⟩

/-- Some bytes are written, if there are any. -/
theorem meets_writeMemory_of_pos (hs : Sane s) {offset n : ℕ} {bs : Bytes} (hbs : bs.length ≤ n)
    (h : 0 < n → offset + n ≤ s.memory.length) :
    (if 0 < n then writeMemory offset bs s else .ret s).Meets (defined rev gas) fun s' =>
      Paid s s' ∧ s'.gasLeft = s.gasLeft := by
  split
  · next hn =>
    have := h hn
    exact meets_writeMemory hs (by omega)
  · exact ⟨hs.paid, rfl⟩

/-! The host -/

theorem meets_askHost {q : HostCall} {post : q.Answer → Prop} (hq : HasGas rev q)
    (h : ∀ x, Reliable rev q x → post x) : (askHost q).Meets (defined rev gas) post :=
  ⟨hq, h⟩

theorem meets_getTxContext (hs : Sane s) :
    (getTxContext s).Meets (defined rev gas) fun p => Paid s p.2 ∧ 0 ≤ p.1.blockNumber := by
  unfold getTxContext
  split
  · exact ⟨trivial, fun tx htx => ⟨⟨⟨⟨hs.gas_nonneg, hs.gas_lt, hs.memory_words, hs.memory_le, htx,
      hs.output⟩, le_rfl, le_rfl⟩, rfl, rfl, rfl, rfl⟩, htx⟩⟩
  · exact ⟨hs.paid, hs.tx⟩

theorem meets_accessAccount (hs : Sane s) (fr : Frame) (a : Address) {cost : ℕ}
    (hcost : cost ≤ 2 ^ 62) : (accessAccount fr a cost s).Meets (defined rev gas) (Paid s) := by
  unfold accessAccount
  split
  · refine (meets_askHost (by trivial) fun _ _ => trivial).bind fun access (_ : True) => ?_
    split
    · exact (meets_charge hs hcost).imp fun _ h => h.1
    · exact hs.paid
  · exact hs.paid

end Parts

/-! ### Instructions on the stack alone -/

/-- A function of the stack needs some items, and changes the height. -/
def StackFn.Has (f : StackFn) (t : Traits) : Prop :=
  ∀ st, t.stackHeightRequired ≤ st.length → (0 < t.stackHeightChange → st.length < stackLimit) →
    ∃ st', f st = some st' ∧ (st'.length : ℤ) = st.length + t.stackHeightChange

theorem exists_cons {α : Type} {l : List α} {n : ℕ} (h : n + 1 ≤ l.length) :
    ∃ x t, l = x :: t ∧ n ≤ t.length := by
  obtain ⟨x, t, rfl⟩ := List.exists_cons_of_length_pos (Nat.lt_of_lt_of_le (Nat.succ_pos n) h)
  exact ⟨x, t, rfl, Nat.le_of_succ_le_succ h⟩

theorem has_unary (f : Word → Word) : (Instr.unary f).Has ⟨1, 0⟩ := by
  intro st hst _
  obtain ⟨x, st, rfl, -⟩ := exists_cons hst
  exact ⟨_, rfl, by simp⟩

theorem has_binary (f : Word → Word → Word) : (Instr.binary f).Has ⟨2, -1⟩ := by
  intro st hst _
  obtain ⟨x, st₁, rfl, hst₁⟩ := exists_cons hst
  obtain ⟨y, st₂, rfl, -⟩ := exists_cons hst₁
  exact ⟨_, rfl, by simp⟩

theorem has_ternary (f : Word → Word → Word → Word) : (Instr.ternary f).Has ⟨3, -2⟩ := by
  intro st hst _
  obtain ⟨x, st₁, rfl, hst₁⟩ := exists_cons hst
  obtain ⟨y, st₂, rfl, hst₂⟩ := exists_cons hst₁
  obtain ⟨m, st₃, rfl, -⟩ := exists_cons hst₂
  exact ⟨_, rfl, by simp; omega⟩

theorem has_noop : Instr.noop.Has ⟨0, 0⟩ := fun st _ _ => ⟨st, rfl, by simp⟩

theorem has_pop : Instr.pop.Has ⟨1, -1⟩ := by
  intro st hst _
  obtain ⟨x, st, rfl, -⟩ := exists_cons hst
  exact ⟨st, rfl, by simp⟩

theorem has_push0 : Instr.push0.Has ⟨0, 1⟩ := fun st _ hroom =>
  ⟨0 :: st, if_pos (hroom Int.one_pos), by simp⟩

theorem has_dup (n : ℕ) : (Instr.dup n).Has ⟨n + 1, 1⟩ := by
  intro st hst hroom
  refine ⟨st[n] :: st, ?_, by simp⟩
  rw [Instr.dup, List.getElem?_eq_getElem hst, Option.bind_some, Instr.pushTo,
    if_pos (hroom Int.one_pos)]

theorem has_swap (n : ℕ) : (Instr.swap n).Has ⟨n + 2, 0⟩ := by
  intro st hst _
  obtain ⟨t, st₁, rfl, hst₁⟩ := exists_cons hst
  have hn : n < st₁.length := hst₁
  refine ⟨st₁[n] :: st₁.set n t, ?_, by simp⟩
  rw [Instr.swap, List.getElem?_eq_getElem hn, Option.map_some]

/-! ### Instructions that go on -/

section Instructions

variable {rev : Revision} {gas : ℤ} {fr : Frame} {s : ExecutionState}

theorem meets_exp (hs : Sane s) (hst : 2 ≤ s.stack.length) :
    (Instr.exp fr s).Meets (defined rev gas) (Worked s (-1)) := by
  obtain ⟨base, st₁, hst₁, h₁⟩ := exists_cons hst
  obtain ⟨exponent, st, rfl, -⟩ := exists_cons h₁
  unfold Instr.exp
  rw [hst₁]
  dsimp only
  have hbytes := (Intx.countSignificantBytes_le_iff exponent 32).2 exponent.isLt
  have hcost : Intx.countSignificantBytes exponent * (if .spuriousDragon ≤ fr.rev then 50 else 10) ≤
      2 ^ 62 := by split <;> omega
  exact (meets_charge hs hcost).bind fun s₁ h => h.1.worked (by simp [hst₁])

theorem meets_keccak256 [Keccak] (hs : Sane s) (hst : 2 ≤ s.stack.length) :
    (Instr.keccak256 fr s).Meets (defined rev gas) (Worked s (-1)) := by
  obtain ⟨index, st₁, hst₁, h₁⟩ := exists_cons hst
  obtain ⟨size, st, rfl, -⟩ := exists_cons h₁
  unfold Instr.keccak256
  rw [hst₁]
  dsimp only
  refine (meets_checkMemory hs index size).bind ?_
  rintro s₁ ⟨h₁, hsize, hmem⟩
  have hcost : numWords (Intx.toSize size) * 6 ≤ 2 ^ 62 := by
    have := numWords_le hsize
    omega
  refine (meets_charge h₁.sane hcost).bind ?_
  rintro s₂ ⟨h₂, -, hmem₂⟩
  refine (meets_readMemory? (by rw [hmem₂]; exact hmem)).bind fun data _ => ?_
  exact (h₁.trans h₂).worked (by simp [hst₁])

/-- An instruction that asks for something of an account: `BALANCE`, `EXTCODESIZE`,
`EXTCODEHASH`. -/
theorem meets_readAccount (hs : Sane s) {x : Word} {st : List Word} (hst : s.stack = x :: st)
    {q : HostCall} (hq : HasGas rev q) (f : q.Answer → Word) :
    (accessAccount fr (Intx.truncAddress x) Instr.additionalColdAccountAccessCost s >>= fun s₁ =>
      askHost q >>= fun y => .ret { s₁ with stack := f y :: st }).Meets (defined rev gas)
      (Worked s 0) := by
  refine (meets_accessAccount hs fr _ (by decide)).bind fun s₁ h₁ => ?_
  refine (meets_askHost hq fun _ _ => trivial).bind fun y (_ : True) => ?_
  exact h₁.worked (by simp [hst])

theorem meets_balance (hs : Sane s) (hst : 1 ≤ s.stack.length) :
    (Instr.balance fr s).Meets (defined rev gas) (Worked s 0) := by
  obtain ⟨x, st, hst, -⟩ := exists_cons hst
  unfold Instr.balance
  rw [hst]
  exact meets_readAccount (q := .getBalance (Intx.truncAddress x)) hs hst trivial fun value =>
    Intx.load value.bytes

theorem meets_extcodesize (hs : Sane s) (hst : 1 ≤ s.stack.length) :
    (Instr.extcodesize fr s).Meets (defined rev gas) (Worked s 0) := by
  obtain ⟨x, st, hst, -⟩ := exists_cons hst
  unfold Instr.extcodesize
  rw [hst]
  exact meets_readAccount (q := .getCodeSize (Intx.truncAddress x)) hs hst trivial fun size =>
    BitVec.ofNat 256 size

theorem meets_extcodehash (hs : Sane s) (hst : 1 ≤ s.stack.length) :
    (Instr.extcodehash fr s).Meets (defined rev gas) (Worked s 0) := by
  obtain ⟨x, st, hst, -⟩ := exists_cons hst
  unfold Instr.extcodehash
  rw [hst]
  exact meets_readAccount (q := .getCodeHash (Intx.truncAddress x)) hs hst trivial fun hash =>
    Intx.load hash.bytes

theorem meets_pushTxContext (hs : Sane s) (hroom : s.stack.length < stackLimit)
    (f : TxContext → Word) : (Instr.pushTxContext f fr s).Meets (defined rev gas) (Worked s 1) := by
  refine (meets_getTxContext hs).bind fun p h => ?_
  exact (meets_push h.1.sane (by rw [h.1.stack]; exact hroom) _).imp fun _ => h.1.then

theorem meets_selfbalance (hs : Sane s) (hroom : s.stack.length < stackLimit) :
    (Instr.selfbalance fr s).Meets (defined rev gas) (Worked s 1) :=
  (meets_askHost (by trivial) fun _ _ => trivial).bind fun _ (_ : True) => meets_push hs hroom _

theorem meets_blockhash (hs : Sane s) (hst : 1 ≤ s.stack.length) :
    (Instr.blockhash fr s).Meets (defined rev gas) (Worked s 0) := by
  obtain ⟨number, st, hst, -⟩ := exists_cons hst
  unfold Instr.blockhash
  rw [hst]
  refine (meets_getTxContext hs).bind fun p h => ?_
  have hnonneg : 0 ≤ p.1.blockNumber.toInt := Int64.le_iff_toInt_le.1 h.2
  have hlt := p.1.blockNumber.toInt_lt
  refine (meets_int64 (by omega)).bind fun lowerBound _ => ?_
  refine Dialogue.Meets.ite_bind ?_ fun header (_ : True) => h.1.worked (by simp [hst])
  split
  · exact meets_askHost (by trivial) fun _ _ => trivial
  · trivial

theorem meets_calldataload (hs : Sane s) (hst : 1 ≤ s.stack.length) :
    (Instr.calldataload fr s).Meets (defined rev gas) (Worked s 0) := by
  obtain ⟨index, st, hst, -⟩ := exists_cons hst
  unfold Instr.calldataload
  rw [hst]
  dsimp only
  split <;> exact hs.paid.worked (by simp [hst])

theorem length_slice (data : Bytes) (offset n : ℕ) : (Instr.slice data offset n).length = n := by
  simp only [Instr.slice, List.length_append, List.length_take, List.length_replicate]
  omega

theorem meets_copyFrom (hs : Sane s) (hst : 3 ≤ s.stack.length) (data : Bytes) :
    (Instr.copyFrom data s).Meets (defined rev gas) (Worked s (-3)) := by
  obtain ⟨memIndex, st₁, hst₁, h₁⟩ := exists_cons hst
  obtain ⟨inputIndex, st₂, rfl, h₂⟩ := exists_cons h₁
  obtain ⟨size, st, rfl, -⟩ := exists_cons h₂
  unfold Instr.copyFrom
  rw [hst₁]
  refine (meets_checkMemory hs memIndex size).bind ?_
  rintro s₁ ⟨h₁, hsize, hmem⟩
  have hwords := numWords_le hsize
  refine (meets_charge h₁.sane (by omega)).bind ?_
  rintro s₂ ⟨h₂, -, hmem₂⟩
  rw [← hmem₂] at hmem
  refine (meets_writeMemory_of_pos h₂.sane (length_slice ..).le hmem).ite_bind fun s₃ h₃ => ?_
  exact ((h₁.trans h₂).trans h₃.1).worked (by simp only [hst₁, List.length_cons]; omega)

theorem meets_extcodecopy (hs : Sane s) (hst : 4 ≤ s.stack.length) :
    (Instr.extcodecopy fr s).Meets (defined rev gas) (Worked s (-4)) := by
  obtain ⟨x, st₁, hst₁, h₁⟩ := exists_cons hst
  obtain ⟨memIndex, st₂, rfl, h₂⟩ := exists_cons h₁
  obtain ⟨inputIndex, st₃, rfl, h₃⟩ := exists_cons h₂
  obtain ⟨size, st, rfl, -⟩ := exists_cons h₃
  unfold Instr.extcodecopy
  rw [hst₁]
  refine (meets_checkMemory hs memIndex size).bind ?_
  rintro s₁ ⟨h₁, hsize, hmem⟩
  have hwords := numWords_le hsize
  refine (meets_charge h₁.sane (by omega)).bind ?_
  rintro s₂ ⟨h₂, -, hmem₂⟩
  refine (meets_accessAccount h₂.sane fr _ (by decide)).bind fun s₃ h₃ => ?_
  have h := (h₁.trans h₂).trans h₃
  have hle := h₃.memory_le
  rw [hmem₂] at hle
  split
  · next hpos =>
    refine (meets_askHost (by trivial) fun bs hbs => hbs).bind fun bs hbs => ?_
    have hlen : (bs ++ List.replicate (Intx.toSize size - bs.length) (0 : UInt8)).length =
        Intx.toSize size := by
      simp only [List.length_append, List.length_replicate]
      exact Nat.add_sub_cancel' hbs
    have hfits := hmem hpos
    exact (meets_writeMemory h₃.sane (by rw [hlen]; omega)).bind fun s₄ h₄ =>
      (h.trans h₄.1).worked (by simp only [hst₁, List.length_cons]; omega)
  · exact h.worked (by simp only [hst₁, List.length_cons]; omega)

theorem meets_returndatacopy (hs : Sane s) (hst : 3 ≤ s.stack.length) :
    (Instr.returndatacopy fr s).Meets (defined rev gas) (Worked s (-3)) := by
  obtain ⟨memIndex, st₁, hst₁, h₁⟩ := exists_cons hst
  obtain ⟨inputIndex, st₂, rfl, h₂⟩ := exists_cons h₁
  obtain ⟨size, st, rfl, -⟩ := exists_cons h₂
  unfold Instr.returndatacopy
  rw [hst₁]
  refine (meets_checkMemory hs memIndex size).bind ?_
  rintro s₁ ⟨h₁, hsize, hmem⟩
  dsimp only
  split
  · exact meets_halt (by decide) h₁.sane.output
  · split
    · exact meets_halt (by decide) h₁.sane.output
    · have hwords := numWords_le hsize
      refine (meets_charge h₁.sane (by omega)).bind ?_
      rintro s₂ ⟨h₂, -, hmem₂⟩
      rw [← hmem₂] at hmem
      refine (meets_writeMemory_of_pos h₂.sane (List.length_take_le ..) hmem).ite_bind
        fun s₃ h₃ => ?_
      exact ((h₁.trans h₂).trans h₃.1).worked (by simp only [hst₁, List.length_cons]; omega)

theorem meets_mload (hs : Sane s) (hst : 1 ≤ s.stack.length) :
    (Instr.mload fr s).Meets (defined rev gas) (Worked s 0) := by
  obtain ⟨index, st, hst₁, -⟩ := exists_cons hst
  unfold Instr.mload
  rw [hst₁]
  refine (meets_checkMemorySize hs index (by decide)).bind ?_
  rintro s₁ ⟨h₁, hmem⟩
  exact (meets_readMemory hmem).bind fun bs _ => h₁.worked (by simp [hst₁])

/-- `MSTORE` and `MSTORE8`. -/
theorem meets_store (hs : Sane s) {index value : Word} {st : List Word}
    (hst : s.stack = index :: value :: st) {n : ℕ} (hn : n ≤ maxBufferSize) {bs : Bytes}
    (hbs : bs.length = n) :
    (checkMemorySize index n s >>= fun s₁ => writeMemory (Intx.toSize index) bs s₁ >>= fun s₂ =>
      .ret { s₂ with stack := st }).Meets (defined rev gas) (Worked s (-2)) := by
  refine (meets_checkMemorySize hs index hn).bind ?_
  rintro s₁ ⟨h₁, hmem⟩
  exact (meets_writeMemory h₁.sane (by rw [hbs]; exact hmem)).bind fun s₂ h₂ =>
    (h₁.trans h₂.1).worked (by simp only [hst, List.length_cons]; omega)

theorem meets_mstore (hs : Sane s) (hst : 2 ≤ s.stack.length) :
    (Instr.mstore fr s).Meets (defined rev gas) (Worked s (-2)) := by
  obtain ⟨index, st₁, hst₁, h₁⟩ := exists_cons hst
  obtain ⟨value, st, rfl, -⟩ := exists_cons h₁
  unfold Instr.mstore
  rw [hst₁]
  exact meets_store hs hst₁ (by decide) (Intx.length_beBytes ..)

theorem meets_mstore8 (hs : Sane s) (hst : 2 ≤ s.stack.length) :
    (Instr.mstore8 fr s).Meets (defined rev gas) (Worked s (-2)) := by
  obtain ⟨index, st₁, hst₁, h₁⟩ := exists_cons hst
  obtain ⟨value, st, rfl, -⟩ := exists_cons h₁
  unfold Instr.mstore8
  rw [hst₁]
  exact meets_store hs hst₁ (by decide) rfl

theorem meets_sload (hs : Sane s) (hst : 1 ≤ s.stack.length) :
    (Instr.sload fr s).Meets (defined rev gas) (Worked s 0) := by
  obtain ⟨x, st, hst₁, -⟩ := exists_cons hst
  unfold Instr.sload
  rw [hst₁]
  have hcont : ∀ s₁, Paid s s₁ →
      (askHost (.getStorage fr.msg.recipient (Intx.store x)) >>= fun value =>
        .ret { s₁ with stack := Intx.load value.bytes :: st }).Meets (defined rev gas)
          (Worked s 0) :=
    fun s₁ h₁ => (meets_askHost (by trivial) fun _ _ => trivial).bind fun value (_ : True) =>
      h₁.worked (by simp [hst₁])
  dsimp only
  split
  · refine (meets_askHost (by trivial) fun _ _ => trivial).bind fun access (_ : True) => ?_
    split
    · exact (meets_charge hs (by decide)).bind fun s₁ h₁ => hcont s₁ h₁.1
    · exact hcont s hs.paid
  · exact hcont s hs.paid

theorem sstoreCosts_le (rev : Revision) (status : StorageStatus) :
    (Instr.sstoreCosts rev status).gasCost ≤ 5000 := by
  cases rev <;> cases status <;> decide

theorem sstoreCosts_refund_le (rev : Revision) (status : StorageStatus) :
    (Instr.sstoreCosts rev status).gasRefund ≤
      refundRate rev * (Instr.sstoreCosts rev status).gasCost := by
  cases rev <;> cases status <;> decide

theorem meets_sstore (hs : Sane s) (hst : 2 ≤ s.stack.length) (hledger : Ledger fr.rev gas 0 s) :
    (Instr.sstore fr s).Meets (defined fr.rev gas) (Settled fr.rev gas s (-2)) := by
  obtain ⟨x, st₁, hst₁, h₁⟩ := exists_cons hst
  obtain ⟨y, st, rfl, -⟩ := exists_cons h₁
  unfold Instr.sstore
  split
  · exact meets_halt (by decide) hs.output
  · split
    · exact meets_halt (by decide) hs.output
    · rw [hst₁]
      have hcont : ∀ gasCostCold ≤ Instr.coldSloadCost,
          (askHost (.setStorage fr.msg.recipient (Intx.store x) (Intx.store y)) >>= fun status =>
            charge ((Instr.sstoreCosts fr.rev status).gasCost + gasCostCold) s >>= fun s₁ =>
              addRefund (Instr.sstoreCosts fr.rev status).gasRefund s₁ >>= fun s₂ =>
                .ret { s₂ with stack := st }).Meets (defined fr.rev gas)
            (Settled fr.rev gas s (-2)) := by
        intro gasCostCold hcold
        refine (meets_askHost (by trivial) fun _ _ => trivial).bind fun status (_ : True) => ?_
        have hcost := sstoreCosts_le fr.rev status
        have hcold' : Instr.coldSloadCost = 2100 := rfl
        refine (meets_charge hs (by omega)).bind ?_
        rintro s₁ ⟨h₁, hgas₁, -⟩
        have hrefund : ((Instr.sstoreCosts fr.rev status).gasRefund : ℤ) ≤
            refundRate fr.rev * ((Instr.sstoreCosts fr.rev status).gasCost + gasCostCold : ℕ) := by
          exact_mod_cast (sstoreCosts_refund_le fr.rev status).trans
            (Nat.mul_le_mul_left _ (Nat.le_add_right _ _))
        have hnonneg := h₁.sane.gas_nonneg
        refine meets_addRefund hledger.fits (h₁.gasRefund ▸ hledger.refund) _ (Int.natCast_nonneg _)
          hrefund (by omega) fun r hr => ?_
        exact ⟨h₁.toSpent.of_eq rfl rfl rfl rfl rfl,
          by simp only [hst₁, List.length_cons]; omega, h₁.codeIt, hr.mono (by dsimp only; omega)⟩
      dsimp only
      split
      · refine (meets_askHost (by trivial) fun _ _ => trivial).bind
          fun access (_ : True) => hcont _ ?_
        split
        · exact le_rfl
        · exact Nat.zero_le _
      · exact hcont 0 (Nat.zero_le _)

theorem meets_log {n : ℕ} (hs : Sane s) (hst : n + 2 ≤ s.stack.length) :
    (Instr.log n fr s).Meets (defined rev gas) (Worked s (-(n + 2))) := by
  obtain ⟨offset, st₁, hst₁, h₁⟩ := exists_cons hst
  obtain ⟨size, st, rfl, hn⟩ := exists_cons h₁
  unfold Instr.log
  split
  · exact meets_halt (by decide) hs.output
  · rw [hst₁]
    dsimp only
    rw [if_neg (not_lt.2 hn)]
    refine (meets_checkMemory hs offset size).bind ?_
    rintro s₁ ⟨h₁, hsize, hmem⟩
    have hmax : maxBufferSize = 2 ^ 32 - 1 := rfl
    refine (meets_charge h₁.sane (by omega)).bind ?_
    rintro s₂ ⟨h₂, -, hmem₂⟩
    refine (meets_readMemory? (by rw [hmem₂]; exact hmem)).bind fun data _ => ?_
    refine (meets_askHost (by trivial) fun _ _ => trivial).bind fun _ (_ : True) => ?_
    exact (h₁.trans h₂).worked (by
      simp only [hst₁, List.length_cons, List.length_drop]
      omega)

/-! Calls and creations -/

theorem Sane.worked (hs : Sane s) : Worked s 0 s := ⟨hs.spent, by simp, rfl, rfl⟩

theorem toInt_ofInt_of_sane {g : ℤ} (hs : Sane s) (hg : 0 ≤ g) (hle : g ≤ s.gasLeft) :
    (Int64.ofInt g).toInt = g := by
  have hlt := hs.gas_lt
  exact Int64.toInt_ofInt_of_le (by omega) (by omega)

/-- A message with some of the gas may be called. -/
theorem hasGas_call (hs : Sane s) {paid : ℤ} (hledger : Ledger rev gas paid s) {g : ℤ} (hg : 0 ≤ g)
    (hle : g ≤ s.gasLeft) (msg : Message) (hmsg : msg.gas = Int64.ofInt g) :
    msg.gas.toInt = g ∧ HasGas rev (.call msg) := by
  have heq : msg.gas.toInt = g := by rw [hmsg, toInt_ofInt_of_sane hs hg hle]
  refine ⟨heq, ?_⟩
  rw [HasGas, heq]
  exact hledger.fits.mono hg (hle.trans hledger.gas_le)

/-- The gas that a call does not use comes back, and its refund is added. -/
theorem meets_payBack (hs : Sane s) (hledger : Ledger rev gas 40 s) {msg : Message}
    {msgGas : ℤ} (hmsg : msg.gas.toInt = msgGas) (hle : msgGas ≤ s.gasLeft) {result : Result}
    (hresult : Reliable rev (.call msg) result) {k : ℤ → ExecutionState → Act ExecutionState}
    {post : ExecutionState → Prop}
    (hk : ∀ g r, 0 ≤ g → g ≤ s.gasLeft → Refunds rev (gas - g) r →
      (k g { s with gasRefund := r }).Meets (defined rev gas) post) :
    (int64 (msgGas - result.gasLeft.toInt) >>= fun gasUsed => int64 (s.gasLeft - gasUsed) >>=
      fun gasLeft => addRefund result.gasRefund.toInt s >>= k gasLeft).Meets (defined rev gas)
      post := by
  subst hmsg
  obtain ⟨hnonneg, hleft, hrefund⟩ := hresult
  have hnonneg : 0 ≤ result.gasLeft.toInt := Int64.le_iff_toInt_le.1 hnonneg
  have hleft : result.gasLeft.toInt ≤ msg.gas.toInt := Int64.le_iff_toInt_le.1 hleft
  have hlt := hs.gas_lt
  refine (meets_int64 (by omega)).bind ?_
  rintro _ rfl
  refine (meets_int64 (by omega)).bind ?_
  rintro _ rfl
  refine meets_addRefund hledger.fits hledger.refund _ hrefund.nonneg hrefund.le (by omega)
    fun r hr => ?_
  exact hk _ r (by omega) (by omega) (hr.mono (by omega))

theorem meets_finishCall (hs : Sane s) (hledger : Ledger rev gas 40 s) {args : Instr.CallArgs}
    {x : Word} {st : List Word} (hst : s.stack = x :: st) {msg : Message} {msgGas : ℤ}
    (hmsg : msg.gas.toInt = msgGas) (hle : msgGas ≤ s.gasLeft) {result : Result}
    (hresult : Reliable rev (.call msg) result)
    (hmem : 0 < Intx.toSize args.outputSize →
      Intx.toSize args.outputOffset + Intx.toSize args.outputSize ≤ s.memory.length) :
    (Instr.finishCall args st msgGas result s).Meets (defined rev gas) (Settled rev gas s 0) := by
  unfold Instr.finishCall
  have hcopy : 0 < min (Intx.toSize args.outputSize) result.output.length →
      Intx.toSize args.outputOffset + min (Intx.toSize args.outputSize) result.output.length ≤
        s.memory.length := by
    intro hpos
    have := hmem (lt_of_lt_of_le hpos (min_le_left ..))
    omega
  refine (meets_writeMemory_of_pos hs (List.length_take_le ..) hcopy).ite_bind fun s₁ h₁ => ?_
  refine meets_payBack h₁.1.sane (hledger.paid h₁.1) hmsg (h₁.2 ▸ hle) hresult
    fun g r hg hgle hr => ?_
  have hpaid := h₁.1.trans (h₁.1.sane.spend hg hgle)
  exact ⟨hpaid.toSpent.of_eq rfl rfl rfl rfl rfl, by simp [hst], hpaid.codeIt, hr⟩

/-- A question about a balance, if there is something to send. -/
theorem meets_tooLittle {c : Prop} [Decidable c] {a : Address} (f : Bytes32 → Bool)
    {k : Bool → Act ExecutionState} {post : ExecutionState → Prop}
    (hk : ∀ b, (k b).Meets (defined rev gas) post) :
    (if c then askHost (.getBalance a) >>= fun balance => .ret (f balance) >>= k
      else .ret false >>= k).Meets (defined rev gas) post := by
  split
  · exact (meets_askHost (by trivial) fun _ _ => trivial).bind fun balance (_ : True) => hk _
  · exact hk false

theorem meets_makeCall (hs : Sane s) (hledger : Ledger rev gas 40 s) {args : Instr.CallArgs}
    {x : Word} {st : List Word} (hst : s.stack = x :: st) {msgGas : ℤ} (hnonneg : 0 ≤ msgGas)
    (hle : msgGas ≤ s.gasLeft) (msg : Message)
    (hmem : 0 < Intx.toSize args.outputSize →
      Intx.toSize args.outputOffset + Intx.toSize args.outputSize ≤ s.memory.length) :
    (Instr.makeCall fr args st msg msgGas s).Meets (defined rev gas) (Settled rev gas s 0) := by
  have hlight : Settled rev gas s 0 s := hs.worked.settled (hledger.mono (by norm_num))
  unfold Instr.makeCall
  split
  · exact hlight
  · refine meets_tooLittle _ fun tooLittle => ?_
    dsimp only
    split
    · exact hlight
    · obtain ⟨hmsg, hasGas⟩ := hasGas_call hs hledger hnonneg hle
        { msg with gas := Int64.ofInt msgGas } rfl
      exact (meets_askHost hasGas fun result h => h).bind fun result hresult =>
        meets_finishCall hs hledger hst hmsg hle hresult hmem

/-- How many operands the instruction takes. -/
def CallOp.operands (op : Instr.CallOp) : ℕ :=
  if op = .staticcall ∨ op = .delegatecall then 6 else 7

theorem exists_pop {op : Instr.CallOp} {l : List Word} (h : CallOp.operands op ≤ l.length) :
    ∃ args st, op.pop l = some (args, st) ∧ l.length = st.length + CallOp.operands op := by
  unfold CallOp.operands at h ⊢
  unfold Instr.CallOp.pop
  split_ifs at h ⊢
  · obtain ⟨x₁, l₁, rfl, h₁⟩ := exists_cons h
    obtain ⟨x₂, l₂, rfl, h₂⟩ := exists_cons h₁
    obtain ⟨x₃, l₃, rfl, h₃⟩ := exists_cons h₂
    obtain ⟨x₄, l₄, rfl, h₄⟩ := exists_cons h₃
    obtain ⟨x₅, l₅, rfl, h₅⟩ := exists_cons h₄
    obtain ⟨x₆, st, rfl, -⟩ := exists_cons h₅
    exact ⟨_, _, rfl, rfl⟩
  · obtain ⟨x₁, l₁, rfl, h₁⟩ := exists_cons h
    obtain ⟨x₂, l₂, rfl, h₂⟩ := exists_cons h₁
    obtain ⟨x₃, l₃, rfl, h₃⟩ := exists_cons h₂
    obtain ⟨x₄, l₄, rfl, h₄⟩ := exists_cons h₃
    obtain ⟨x₅, l₅, rfl, h₅⟩ := exists_cons h₄
    obtain ⟨x₆, l₆, rfl, h₆⟩ := exists_cons h₅
    obtain ⟨x₇, st, rfl, -⟩ := exists_cons h₆
    exact ⟨_, _, rfl, rfl⟩

theorem meets_cost (hs : Sane s) (op : Instr.CallOp) (args : Instr.CallArgs) :
    (op.cost fr args s).Meets (defined rev gas) fun cost =>
      cost ≤ 34000 ∧ (args.value ≠ 0 → 9000 ≤ cost) := by
  unfold Instr.CallOp.cost
  by_cases hop : op = .call
  · rw [if_pos hop]
    by_cases hstatic : args.value ≠ 0 ∧ fr.inStaticMode = true
    · rw [if_pos hstatic]
      exact meets_halt (by decide) hs.output
    · rw [if_neg hstatic]
      split
      · refine (meets_askHost (by trivial) fun _ _ => trivial).bind fun isThere (_ : True) => ?_
        simp only [Dialogue.meets_ret]
        grind
      · simp only [Dialogue.meets_ret]
        grind
  · rw [if_neg hop]
    simp only [Dialogue.meets_ret]
    grind

theorem meets_callGas (hs : Sane s) (x : Word) :
    (Instr.callGas fr x s).Meets (defined rev gas) fun g => 0 ≤ g ∧ g ≤ s.gasLeft := by
  have hnonneg := hs.gas_nonneg
  have hx : 0 ≤ (if x.toNat < 2 ^ 63 - 1 then (x.toNat : ℤ) else 2 ^ 63 - 1) := by
    split <;> omega
  unfold Instr.callGas
  generalize (if x.toNat < 2 ^ 63 - 1 then (x.toNat : ℤ) else 2 ^ 63 - 1) = msgGas at hx
  dsimp only
  split
  · simp only [Dialogue.meets_ret]
    omega
  · split
    · exact meets_halt (by decide) hs.output
    · next hle => exact ⟨hx, not_lt.1 hle⟩

theorem meets_callImpl (op : Instr.CallOp) (hs : Sane s)
    (hst : CallOp.operands op ≤ s.stack.length) (hledger : Ledger rev gas 40 s) :
    (Instr.callImpl op fr s).Meets (defined rev gas)
      (Settled rev gas s (1 - CallOp.operands op)) := by
  obtain ⟨args, st, hpop, hlen⟩ := exists_pop hst
  unfold Instr.callImpl
  refine (meets_orFault_of_eq hpop).bind ?_
  rintro _ rfl
  have hs₀ : Sane { s with stack := 0 :: st, returnData := [] } := hs.of_eq rfl rfl rfl rfl rfl
  refine (meets_accessAccount hs₀ fr _ (by decide)).bind fun s₁ h₁ => ?_
  refine (meets_checkMemory h₁.sane _ _).bind ?_
  rintro s₂ ⟨h₂, -, hin⟩
  refine (meets_checkMemory h₂.sane _ _).bind ?_
  rintro s₃ ⟨h₃, -, hout⟩
  refine (meets_readMemory? fun hpos => (hin hpos).trans h₃.memory_le).bind fun data _ => ?_
  refine (meets_cost h₃.sane op args).bind ?_
  rintro cost ⟨hcost, hvalue⟩
  refine (meets_charge h₃.sane (by omega)).bind ?_
  rintro s₄ ⟨h₄, hgas₄, hmem₄⟩
  refine (meets_callGas h₄.sane args.gas).bind ?_
  rintro g ⟨hg, hgle⟩
  -- the stipend is less than what a call with a value costs
  generalize hstipend : (if args.value ≠ 0 then 2300 else 0 : ℤ) = stipend
  have hstipend : 0 ≤ stipend ∧ s₄.gasLeft + stipend ≤ s₃.gasLeft := by
    rw [← hstipend]
    split
    · next hv =>
      have := hvalue hv
      omega
    · omega
  have hlt := h₃.sane.gas_lt
  refine (meets_int64 (by omega)).bind ?_
  rintro _ rfl
  refine (meets_int64 (by omega)).bind ?_
  rintro _ rfl
  have h := ((h₁.trans h₂).trans h₃)
  have hs₅ : Sane { s₄ with gasLeft := s₄.gasLeft + stipend } :=
    ⟨by dsimp only; omega, by dsimp only; omega, h₄.sane.memory_words, h₄.sane.memory_le,
      h₄.sane.tx, h₄.sane.output⟩
  have h₅ : Spent s₃ { s₄ with gasLeft := s₄.gasLeft + stipend } := by
    refine ⟨hs₅, (congrArg List.length hmem₄).ge, ?_⟩
    rw [worth, worth, hmem₄]
    dsimp only
    omega
  have hledger₅ : Ledger rev gas 40 { s₄ with gasLeft := s₄.gasLeft + stipend } :=
    hledger.spend (h₅.gas_le.trans h.gas_le) (h₄.gasRefund.trans h.gasRefund)
  refine (meets_makeCall hs₅ hledger₅ (h₄.stack.trans h.stack) (by omega) (by dsimp only; omega) _
    (by rw [hmem₄]; exact hout)).imp fun s₆ h₆ => ?_
  exact ⟨((h.toSpent.trans h₅).trans h₆.toSpent).of_eq_left rfl rfl,
    by rw [h₆.height]; dsimp only; rw [h₄.stack, h.stack]; simp only [List.length_cons]; omega,
    h₆.codeIt.trans (h₄.codeIt.trans h.codeIt), h₆.refund⟩

theorem meets_makeCreate (salted : Bool) (hs : Sane s) (hledger : Ledger rev gas 40 s)
    {args : Instr.CreateArgs} {x : Word} {st : List Word} (hst : s.stack = x :: st)
    (hmem : 0 < Intx.toSize args.initCodeSize →
      Intx.toSize args.initCodeOffset + Intx.toSize args.initCodeSize ≤ s.memory.length) :
    (Instr.makeCreate salted fr args st s).Meets (defined rev gas) (Settled rev gas s 0) := by
  have hlight : Settled rev gas s 0 s := hs.worked.settled (hledger.mono (by norm_num))
  unfold Instr.makeCreate
  split
  · exact hlight
  · refine meets_tooLittle _ fun tooLittle => ?_
    dsimp only
    split
    · exact hlight
    · have hnonneg := hs.gas_nonneg
      have hgas : 0 ≤ (if .tangerineWhistle ≤ fr.rev then s.gasLeft - s.gasLeft / 64
            else s.gasLeft) ∧
          (if .tangerineWhistle ≤ fr.rev then s.gasLeft - s.gasLeft / 64 else s.gasLeft) ≤
            s.gasLeft := by split <;> omega
      generalize (if .tangerineWhistle ≤ fr.rev then s.gasLeft - s.gasLeft / 64
        else s.gasLeft) = msgGas at hgas
      refine (meets_readMemory? hmem).bind fun initCode _ => ?_
      obtain ⟨hmsg, hasGas⟩ := hasGas_call hs hledger hgas.1 hgas.2
        (Instr.createMessage salted fr args initCode msgGas) rfl
      refine (meets_askHost hasGas fun result h => h).bind fun result hresult => ?_
      refine meets_payBack hs hledger hmsg hgas.2 hresult fun g r hg hgle hr => ?_
      have hpaid := hs.spend hg hgle
      exact ⟨hpaid.toSpent.of_eq rfl rfl rfl rfl rfl, by simp [hst], rfl, hr⟩

/-- How many operands `CREATE` and `CREATE2` take. -/
def createOperands (salted : Bool) : ℕ := if salted then 4 else 3

theorem exists_popCreateArgs {salted : Bool} {l : List Word}
    (h : createOperands salted ≤ l.length) :
    ∃ args st, Instr.popCreateArgs salted l = some (args, st) ∧
      l.length = st.length + createOperands salted := by
  cases salted with
  | true =>
    obtain ⟨x₁, l₁, rfl, h₁⟩ := exists_cons (n := 3) h
    obtain ⟨x₂, l₂, rfl, h₂⟩ := exists_cons h₁
    obtain ⟨x₃, l₃, rfl, h₃⟩ := exists_cons h₂
    obtain ⟨x₄, st, rfl, -⟩ := exists_cons h₃
    exact ⟨_, _, rfl, rfl⟩
  | false =>
    obtain ⟨x₁, l₁, rfl, h₁⟩ := exists_cons (n := 2) h
    obtain ⟨x₂, l₂, rfl, h₂⟩ := exists_cons h₁
    obtain ⟨x₃, st, rfl, -⟩ := exists_cons h₂
    exact ⟨_, _, rfl, rfl⟩

theorem meets_createImpl (salted : Bool) (hs : Sane s)
    (hst : createOperands salted ≤ s.stack.length) (hledger : Ledger rev gas 40 s) :
    (Instr.createImpl salted fr s).Meets (defined rev gas)
      (Settled rev gas s (1 - createOperands salted)) := by
  obtain ⟨args, st, hpop, hlen⟩ := exists_popCreateArgs hst
  unfold Instr.createImpl
  split
  · exact meets_halt (by decide) hs.output
  refine (meets_orFault_of_eq hpop).bind ?_
  rintro _ rfl
  have hs₀ : Sane { s with stack := 0 :: st, returnData := [] } := hs.of_eq rfl rfl rfl rfl rfl
  refine (meets_checkMemory hs₀ _ _).bind ?_
  rintro s₁ ⟨h₁, hsize, hmem⟩
  dsimp only
  split
  · exact meets_halt (by decide) h₁.sane.output
  · have hcost : numWords (Intx.toSize args.initCodeSize) *
        ((if salted = true then 6 else 0) + if .shanghai ≤ fr.rev then 2 else 0) ≤ 2 ^ 62 := by
      refine (Nat.mul_le_mul (numWords_le hsize) (Nat.add_le_add ?_ ?_ : _ ≤ 6 + 2)).trans
        (by decide)
      all_goals split <;> decide
    refine (meets_charge h₁.sane hcost).bind ?_
    rintro s₂ ⟨h₂, -, hmem₂⟩
    have h := h₁.trans h₂
    have hledger₂ : Ledger rev gas 40 s₂ := hledger.spend h.gas_le h.gasRefund
    refine (meets_makeCreate salted h₂.sane hledger₂ h.stack (by rw [hmem₂]; exact hmem)).imp
      fun s₃ h₃ => ?_
    exact ⟨(h.toSpent.trans h₃.toSpent).of_eq_left rfl rfl,
      by rw [h₃.height, h.stack]; simp only [List.length_cons]; omega, h₃.codeIt.trans h.codeIt,
      h₃.refund⟩

/-! The ends of an execution -/

theorem ended_of_sane (status : StatusCode) (hs : Sane s) (hledger : Ledger rev gas 0 s) :
    Ended rev gas { s with status := status } where
  gas _ := ⟨hs.gas_nonneg, hledger.gas_le⟩
  refund _ := hledger.refund.mono (by dsimp only; omega)
  noOutput _ := hs.output.2
  output h := absurd hs.output.1 h

theorem meets_stopImpl {post : ExecutionState → Prop} (fr : Frame) (status : StatusCode)
    (hs : Sane s) (hledger : Ledger rev gas 0 s) :
    (Instr.stopImpl status fr s).Meets (defined rev gas) post :=
  ended_of_sane _ hs hledger

theorem meets_returnImpl {post : ExecutionState → Prop} (fr : Frame) (status : StatusCode)
    (hs : Sane s) (hst : 2 ≤ s.stack.length) (hledger : Ledger rev gas 0 s) :
    (Instr.returnImpl status fr s).Meets (defined rev gas) post := by
  obtain ⟨offset, st₁, hst₁, h₁⟩ := exists_cons hst
  obtain ⟨size, st, rfl, -⟩ := exists_cons h₁
  unfold Instr.returnImpl
  rw [hst₁]
  refine (meets_checkMemory hs offset size).bind ?_
  rintro s₁ ⟨h₁, -, hmem⟩
  have hended := ended_of_sane status h₁.sane (hledger.paid h₁)
  refine ⟨hended.gas, hended.refund, fun hsize => ?_, fun hsize => ?_⟩ <;> dsimp only at hsize ⊢
  · rw [if_neg (not_not.2 hsize)]
    exact h₁.sane.output.2
  · rw [if_pos hsize]
    exact hmem (Nat.pos_of_ne_zero hsize)

/-- A beneficiary that is not there has to be paid for. -/
theorem meets_payBeneficiary {post : ExecutionState → Prop} (hs : Sane s) {a : Address}
    {k : ExecutionState → Act ExecutionState}
    (hk : ∀ s', Paid s s' → (k s').Meets (defined rev gas) post) (pays : Bool) :
    (if pays then askHost (.accountExists a) >>= fun isThere =>
        if isThere then .ret s >>= k else charge 25000 s >>= k
      else .ret s >>= k).Meets (defined rev gas) post := by
  split
  · refine (meets_askHost (by trivial) fun _ _ => trivial).bind fun isThere (_ : True) => ?_
    split
    · exact hk s hs.paid
    · exact (meets_charge hs (by decide)).bind fun s' h => hk s' h.1
  · exact hk s hs.paid

theorem meets_selfdestruct {post : ExecutionState → Prop} (hs : Sane s) (hst : 1 ≤ s.stack.length)
    (hledger : Ledger fr.rev gas 0 s) :
    (Instr.selfdestruct fr s).Meets (defined fr.rev gas) post := by
  obtain ⟨x, st, hst₁, -⟩ := exists_cons hst
  unfold Instr.selfdestruct
  split
  · exact meets_halt (by decide) hs.output
  rw [hst₁]
  refine (meets_accessAccount hs fr _ (by decide)).bind fun s₁ h₁ => ?_
  have hdestroy : ∀ s₂, Paid s₁ s₂ →
      (askHost (.selfdestruct fr.msg.recipient (Intx.truncAddress x)) >>= fun first =>
        if first ∧ fr.rev < .london then
          addRefund 24000 s₂ >>= fun s₃ => (halt statusSuccess s₃ : Act ExecutionState)
        else .ret s₂ >>= fun s₃ => halt statusSuccess s₃).Meets (defined fr.rev gas) post := by
    intro s₂ h₂
    have hledger₂ := hledger.paid (h₁.trans h₂)
    have hended := ended_of_sane statusSuccess h₂.sane hledger₂
    refine (meets_askHost (by trivial) fun _ _ => trivial).bind fun first (_ : True) => ?_
    split
    · next hfirst =>
      -- the refund is that of the cheapest call
      have hrate : (refundRate fr.rev : ℤ) = 600 := by
        rw [refundRate, if_neg fun h => absurd (h ▸ hfirst.2) (by decide)]
        rfl
      have hnonneg := h₂.sane.gas_nonneg
      refine meets_addRefund hledger.fits hledger₂.refund 40 (by norm_num)
        (by rw [hrate]; norm_num) (by omega) fun r hr => ?_
      exact ⟨hended.gas, fun _ => hr.mono (by dsimp only; omega), hended.noOutput, hended.output⟩
    · exact hended
  dsimp only
  split
  · split
    · exact meets_payBeneficiary h₁.sane hdestroy true
    · exact (meets_askHost (by trivial) fun _ _ => trivial).bind fun value (_ : True) =>
        meets_payBeneficiary h₁.sane hdestroy _
  · exact hdestroy s₁ h₁.sane.paid

end Instructions

/-! ### All instructions -/

/-- The instructions that came with the other code format. -/
def newOpcodes : List Opcode := [.rjump, .rjumpi, .rjumpv, .callf, .retf, .dupn, .swapn]

/-- How many bytes an instruction takes, with its data. -/
def Opcode.size : Opcode → ℕ
  | .push n => n + 2
  | _ => 1

/-- Does the instruction end the execution? -/
def Opcode.ends : Opcode → Bool
  | .stop | .return_ | .revert | .invalid | .selfdestruct => true
  | _ => false

/-- What an instruction of legacy code leaves, if it does not end the execution. -/
structure Executed (rev : Revision) (gas : ℤ) (code : Bytes) (op : Opcode)
    (s s' : ExecutionState) : Prop extends Spent s s' where
  goesOn : op.ends = false
  height : (s'.stack.length : ℤ) = s.stack.length + op.traits.stackHeightChange
  codeIt : s'.codeIt = s.codeIt + op.size ∨
    (op = .jump ∨ op = .jumpi) ∧ (analyzeJumpdests code)[s'.codeIt]? = some true
  refund : Refunds rev (gas - s'.gasLeft) s'.gasRefund

section Execute

variable {rev : Revision} {gas : ℤ} {fr : Frame} {s : ExecutionState} {op : Opcode} {code : Bytes}

/-- What works on the stack and the position alone has paid for itself. -/
theorem Ledger.refund_of_eq {s₁ : ExecutionState} (h : Ledger rev gas 0 s)
    (hgas : s₁.gasLeft = s.gasLeft) (hrefund : s₁.gasRefund = s.gasRefund) :
    Refunds rev (gas - s₁.gasLeft) s₁.gasRefund := by
  simpa using (h.spend hgas.le hrefund).refund

theorem meets_invokeSettled {f : Instruction} {change : ℤ}
    (h : (f fr s).Meets (defined rev gas) (Settled rev gas s change))
    (hchange : change = op.traits.stackHeightChange) (hsize : op.size = 1)
    (hends : op.ends = false) :
    (invokeNext f fr s).Meets (defined rev gas) (Executed rev gas code op s) :=
  h.bind fun s' h' => ⟨h'.toSpent.of_eq rfl rfl rfl rfl rfl, hends, hchange ▸ h'.height,
    .inl (by rw [hsize]; exact congrArg (· + 1) h'.codeIt), h'.refund⟩

theorem meets_invokeNext (hledger : Ledger rev gas 0 s) {f : Instruction} {change : ℤ}
    (h : (f fr s).Meets (defined rev gas) (Worked s change))
    (hchange : change = op.traits.stackHeightChange) (hsize : op.size = 1)
    (hends : op.ends = false) :
    (invokeNext f fr s).Meets (defined rev gas) (Executed rev gas code op s) :=
  meets_invokeSettled (h.imp fun _ h' => h'.settled hledger) hchange hsize hends

theorem meets_invokeStack (fr : Frame) {f : StackFn} (hf : f.Has op.traits)
    (hsize : op.size = 1) (hends : op.ends = false) (hs : Sane s) (hledger : Ledger rev gas 0 s)
    (hrequired : op.traits.stackHeightRequired ≤ s.stack.length)
    (hroom : 0 < op.traits.stackHeightChange → s.stack.length < stackLimit) :
    (invokeStack f fr s).Meets (defined rev gas) (Executed rev gas code op s) := by
  obtain ⟨st, hst, hlen⟩ := hf s.stack hrequired hroom
  refine (meets_orFault_of_eq hst).bind ?_
  rintro _ rfl
  exact ⟨hs.spent.of_eq rfl rfl rfl rfl rfl, hends, hlen, .inl (by rw [hsize]),
    hledger.refund_of_eq rfl rfl⟩

theorem meets_jumpImpl (hs : Sane s) (dst : Word) :
    (Instr.jumpImpl fr dst s).Meets (defined rev gas) fun s' =>
      fr.analysis.jumpdestMap[s'.codeIt]? = some true ∧ s' = { s with codeIt := s'.codeIt } := by
  unfold Instr.jumpImpl
  split
  · next h => exact ⟨h.2, rfl⟩
  · exact meets_halt (by decide) hs.output

theorem meets_jump (hfr : fr.analysis = analyzeLegacy code) (hs : Sane s)
    (hledger : Ledger rev gas 0 s) (hst : 1 ≤ s.stack.length) :
    (Instr.jump fr s).Meets (defined rev gas) (Executed rev gas code .jump s) := by
  obtain ⟨dst, st, hst₁, -⟩ := exists_cons hst
  unfold Instr.jump
  rw [hst₁]
  have hs₁ : Sane { s with stack := st } := hs.of_eq rfl rfl rfl rfl rfl
  refine (meets_jumpImpl hs₁ dst).imp ?_
  rintro s' ⟨hmap, heq⟩
  rw [hfr] at hmap
  rw [heq]
  exact ⟨hs.spent.of_eq rfl rfl rfl rfl rfl, rfl, by simp [hst₁, Opcode.traits],
    .inr ⟨.inl rfl, hmap⟩, hledger.refund_of_eq rfl rfl⟩

theorem meets_jumpi (hfr : fr.analysis = analyzeLegacy code) (hs : Sane s)
    (hledger : Ledger rev gas 0 s) (hst : 2 ≤ s.stack.length) :
    (Instr.jumpi fr s).Meets (defined rev gas) (Executed rev gas code .jumpi s) := by
  obtain ⟨dst, st₁, hst₁, h₁⟩ := exists_cons hst
  obtain ⟨cond, st, rfl, -⟩ := exists_cons h₁
  have hheight : (st.length : ℤ) = s.stack.length + Opcode.jumpi.traits.stackHeightChange := by
    simp only [hst₁, List.length_cons, Opcode.traits]
    omega
  unfold Instr.jumpi
  rw [hst₁]
  dsimp only
  split
  · have hs₁ : Sane { s with stack := st } := hs.of_eq rfl rfl rfl rfl rfl
    refine (meets_jumpImpl hs₁ dst).imp ?_
    rintro s' ⟨hmap, heq⟩
    rw [hfr] at hmap
    rw [heq]
    exact ⟨hs.spent.of_eq rfl rfl rfl rfl rfl, rfl, hheight, .inr ⟨.inr rfl, hmap⟩,
      hledger.refund_of_eq rfl rfl⟩
  · exact ⟨hs.spent.of_eq rfl rfl rfl rfl rfl, rfl, hheight, .inl rfl,
      hledger.refund_of_eq rfl rfl⟩

theorem meets_pc (fr : Frame) (hs : Sane s) (hledger : Ledger rev gas 0 s)
    (hroom : s.stack.length < stackLimit) :
    (Instr.pc fr s).Meets (defined rev gas) (Executed rev gas code .pc s) :=
  (meets_push hs hroom _).bind fun _ h => ⟨h.toSpent.of_eq rfl rfl rfl rfl rfl, rfl, h.height,
    .inl (by rw [h.codeIt]; rfl), (h.settled hledger).refund⟩

theorem meets_pushInstr (hs : Sane s) (hledger : Ledger rev gas 0 s)
    (hroom : s.stack.length < stackLimit) (n : Fin 32)
    (hcode : s.codeIt + 33 ≤ fr.analysis.executableCode.length) :
    (Instr.push (n + 1) fr s).Meets (defined rev gas) (Executed rev gas code (.push n) s) := by
  have hdata : Instr.pushData fr (s.codeIt + 1) (n + 1) =
      some (Intx.load (Instr.codeBytes fr (s.codeIt + 1) (n + 1))) :=
    Instr.pushData_eq n.isLt (by omega)
  refine (meets_orFault_of_eq hdata).bind ?_
  rintro _ rfl
  exact (meets_push hs hroom _).bind fun _ h => ⟨h.toSpent.of_eq rfl rfl rfl rfl rfl, rfl,
    h.height, .inl (by rw [h.codeIt]; rfl), (h.settled hledger).refund⟩

/-- An instruction that is not new, in a state that meets its requirements. -/
theorem meets_impl [Keccak] (hfr : fr.analysis = analyzeLegacy code) (hnew : op ∉ newOpcodes)
    (hs : Sane s) {c : ℕ}
    (hcost : Instr.baseCost fr.rev fr.analysis.eofHeader.version op = some c)
    (hpaid : Ledger fr.rev gas c s) (hrequired : op.traits.stackHeightRequired ≤ s.stack.length)
    (hroom : 0 < op.traits.stackHeightChange → s.stack.length < stackLimit)
    (hcode : s.codeIt + 33 ≤ fr.analysis.executableCode.length) :
    (impl op fr s).Meets (defined fr.rev gas) (Executed fr.rev gas code op s) := by
  have hledger : Ledger fr.rev gas 0 s := hpaid.mono (Int.natCast_nonneg c)
  have hforty : op ∈ Instr.calling → Ledger fr.rev gas 40 s := fun hop =>
    hpaid.mono (by exact_mod_cast Instr.forty_le_of_gasCosts hop (Instr.gasCosts_of_baseCost hcost))
  cases op with
  | rjump | rjumpi | rjumpv | callf | retf | dupn | swapn => exact absurd hnew (by decide)
  | stop | invalid => exact meets_stopImpl fr _ hs hledger
  | return_ | revert => exact meets_returnImpl fr _ hs hrequired hledger
  | selfdestruct => exact meets_selfdestruct hs hrequired hledger
  | jump => exact meets_jump hfr hs hledger hrequired
  | jumpi => exact meets_jumpi hfr hs hledger hrequired
  | pc => exact meets_pc fr hs hledger (hroom Int.one_pos)
  | push n => exact meets_pushInstr hs hledger (hroom Int.one_pos) n hcode
  | exp => exact meets_invokeNext hledger (meets_exp hs hrequired) rfl rfl rfl
  | keccak256 => exact meets_invokeNext hledger (meets_keccak256 hs hrequired) rfl rfl rfl
  | address | caller | callvalue | calldatasize | codesize | returndatasize | msize | gas =>
    exact meets_invokeNext hledger (meets_push hs (hroom Int.one_pos) _) rfl rfl rfl
  | origin | gasprice | coinbase | timestamp | number | prevrandao | gaslimit | chainid
  | basefee =>
    exact meets_invokeNext hledger (meets_pushTxContext hs (hroom Int.one_pos) _) rfl rfl rfl
  | selfbalance =>
    exact meets_invokeNext hledger (meets_selfbalance hs (hroom Int.one_pos)) rfl rfl rfl
  | balance => exact meets_invokeNext hledger (meets_balance hs hrequired) rfl rfl rfl
  | extcodesize => exact meets_invokeNext hledger (meets_extcodesize hs hrequired) rfl rfl rfl
  | extcodehash => exact meets_invokeNext hledger (meets_extcodehash hs hrequired) rfl rfl rfl
  | blockhash => exact meets_invokeNext hledger (meets_blockhash hs hrequired) rfl rfl rfl
  | calldataload => exact meets_invokeNext hledger (meets_calldataload hs hrequired) rfl rfl rfl
  | calldatacopy | codecopy =>
    exact meets_invokeNext hledger (meets_copyFrom hs hrequired _) rfl rfl rfl
  | extcodecopy => exact meets_invokeNext hledger (meets_extcodecopy hs hrequired) rfl rfl rfl
  | returndatacopy => exact meets_invokeNext hledger (meets_returndatacopy hs hrequired) rfl rfl rfl
  | mload => exact meets_invokeNext hledger (meets_mload hs hrequired) rfl rfl rfl
  | mstore => exact meets_invokeNext hledger (meets_mstore hs hrequired) rfl rfl rfl
  | mstore8 => exact meets_invokeNext hledger (meets_mstore8 hs hrequired) rfl rfl rfl
  | sload => exact meets_invokeNext hledger (meets_sload hs hrequired) rfl rfl rfl
  | sstore => exact meets_invokeSettled (meets_sstore hs hrequired hledger) rfl rfl rfl
  | log n => exact meets_invokeNext hledger (meets_log hs hrequired) rfl rfl rfl
  | call | callcode | delegatecall | staticcall =>
    exact meets_invokeSettled (meets_callImpl _ hs hrequired (hforty (by decide))) rfl rfl rfl
  | create | create2 =>
    exact meets_invokeSettled (meets_createImpl _ hs hrequired (hforty (by decide))) rfl rfl rfl
  | add | mul | sub | div | sdiv | mod | smod | signextend | lt | gt | slt | sgt | eq | and_ | or_
  | xor_ | byte | shl | shr | sar =>
    exact meets_invokeStack fr (has_binary _) rfl rfl hs hledger hrequired hroom
  | iszero | not_ => exact meets_invokeStack fr (has_unary _) rfl rfl hs hledger hrequired hroom
  | addmod | mulmod => exact meets_invokeStack fr (has_ternary _) rfl rfl hs hledger hrequired hroom
  | pop => exact meets_invokeStack fr has_pop rfl rfl hs hledger hrequired hroom
  | jumpdest => exact meets_invokeStack fr has_noop rfl rfl hs hledger hrequired hroom
  | push0 => exact meets_invokeStack fr has_push0 rfl rfl hs hledger hrequired hroom
  | dup n => exact meets_invokeStack fr (has_dup n) rfl rfl hs hledger hrequired hroom
  | swap n => exact meets_invokeStack fr (has_swap n) rfl rfl hs hledger hrequired hroom

theorem le_of_baseCost {rev : Revision} {eofVersion : UInt8} {c : ℕ}
    (h : Instr.baseCost rev eofVersion op = some c) : c ≤ 2 ^ 62 :=
  (Instr.le_of_gasCosts (Instr.gasCosts_of_baseCost h)).trans (by decide)

/-- What has been checked when an instruction is executed. -/
structure Checked (fr : Frame) (op : Opcode) (s s' : ExecutionState) : Prop where
  paid : Paid s s'
  cost : ∃ c, Instr.baseCost fr.rev fr.analysis.eofHeader.version op = some c ∧
    s'.gasLeft = s.gasLeft - c
  required : op.traits.stackHeightRequired ≤ s.stack.length
  room : 0 < op.traits.stackHeightChange → s.stack.length ≠ stackLimit

theorem meets_checkRequirements (hs : Sane s) (op : Opcode) :
    (checkRequirements op fr s).Meets (defined rev gas) (Checked fr op s) := by
  unfold checkRequirements
  cases hcost : Instr.baseCost fr.rev fr.analysis.eofHeader.version op with
  | none => exact meets_halt (by decide) hs.output
  | some c =>
    dsimp only
    split
    · exact meets_halt (by decide) hs.output
    · next hroom =>
      split
      · exact meets_halt (by decide) hs.output
      · next hrequired =>
        refine (meets_charge hs (le_of_baseCost hcost)).imp fun s' h =>
          ⟨h.1, ⟨c, hcost, h.2.1⟩, by omega, fun hchange hfull => hroom ⟨hchange, hfull⟩⟩

end Execute

/-! ### The whole execution -/

/-- The code has no instruction that came with the other code format, unless it is undefined. -/
def Plain (rev : Revision) (code : Bytes) : Prop :=
  ∀ i b op, InstrStart code i → code[i]? = some b → Opcode.ofByte b = some op →
    Instr.baseCost rev 0 op ≠ none → op ∉ newOpcodes

/-- Before `cancun` nothing is asked of the code. -/
theorem plain_of_lt_cancun {rev : Revision} (h : rev < .cancun) (code : Bytes) :
    Plain rev code := by
  intro i b op _ _ _ hcost hnew
  refine hcost ?_
  have hnone : ∀ op ∈ newOpcodes, Instr.baseCost rev 0 op = none := by
    cases rev <;> first | decide | exact absurd h (by decide)
  exact hnone op hnew

/-- It is enough that none of its bytes is one. -/
theorem plain_of_all {rev : Revision} {code : Bytes}
    (h : code.all (fun b => (Opcode.ofByte b).all (· ∉ newOpcodes)) = true) : Plain rev code := by
  intro i b op _ hb hop _
  have hall := List.all_eq_true.1 h b (List.mem_of_getElem? hb)
  rw [hop] at hall
  exact of_decide_eq_true hall

/-- Legacy code that the interpreter can be trusted with. -/
structure LegacyCode (rev : Revision) (code : Bytes) : Prop where
  analyze : analyze rev code = some (analyzeLegacy code)
  plain : Plain rev code
  length_lt : code.length < 2 ^ 64

/-- The state between two instructions. -/
structure Between (fr : Frame) (s : ExecutionState) : Prop where
  sane : Sane s
  worth_le : worth s ≤ fr.msg.gas.toInt
  height : s.stack.length ≤ stackLimit
  start : InstrStart fr.originalCode s.codeIt ∨ fr.originalCode.length ≤ s.codeIt
  codeIt_le : s.codeIt ≤ fr.originalCode.length + 32
  fits : Fits fr.rev fr.msg.gas.toInt
  refund : Refunds fr.rev (fr.msg.gas.toInt - s.gasLeft) s.gasRefund

theorem Between.gas_le {fr : Frame} {s : ExecutionState} (h : Between fr s) :
    s.gasLeft ≤ fr.msg.gas.toInt := by
  have hworth := h.worth_le
  unfold worth at hworth
  omega

/-- The gas and the refunds when an instruction has been checked. -/
theorem Between.ledger {fr : Frame} {op : Opcode} {s s₁ : ExecutionState} {c : ℕ}
    (h : Between fr s) (hchecked : Checked fr op s s₁) (hgas : s₁.gasLeft = s.gasLeft - c) :
    Ledger fr.rev fr.msg.gas.toInt c s₁ :=
  ⟨h.fits, hchecked.paid.gas_le.trans h.gas_le,
    hchecked.paid.gasRefund ▸ h.refund.mono (by omega)⟩

theorem instrSize_of_ofByte {b : UInt8} {op : Opcode} (h : Opcode.ofByte b = some op) :
    instrSize b = op.size := by
  have hall : ∀ n : Fin 256, (Opcode.ofByte (UInt8.ofNat n)).all
      (fun op => instrSize (UInt8.ofNat n) = op.size) = true := by decide +kernel
  have hb := hall ⟨b.toNat, b.toNat_lt⟩
  rw [UInt8.ofNat_toNat, h] at hb
  exact of_decide_eq_true hb

theorem stackHeightChange_le (op : Opcode) : op.traits.stackHeightChange ≤ 1 := by
  cases op <;> simp [Opcode.traits]
  omega

theorem eq_sstore_of_ends {op : Opcode} (h : op ∈ Instr.costless) (hends : op.ends = false) :
    op = .sstore := by
  revert hends
  revert op
  decide

/-- How far an execution is from its end: the gas first, and then the code. -/
def remaining (fr : Frame) (s : ExecutionState) : ℕ :=
  s.gasLeft.toNat * (fr.analysis.executableCode.length + 1) +
    (fr.analysis.executableCode.length - s.codeIt)

section Run

variable {fr : Frame} {s : ExecutionState}

/-- Padded code has the code, and zeros behind it. -/
theorem getElem?_padCode {code : Bytes} {i : ℕ} (hi : i ≤ code.length + 32) :
    (padCode code)[i]? = some (code[i]?.getD 0) := by
  rw [padCode]
  by_cases hlt : i < code.length
  · rw [List.getElem?_append_left hlt, List.getElem?_eq_getElem hlt, Option.getD_some]
  · have hnone : code[i]? = none := List.getElem?_eq_none (by omega)
    rw [List.getElem?_append_right (by omega), List.getElem?_replicate,
      if_pos (by unfold padding; omega), hnone, Option.getD_none]

/-- An instruction that has been executed leads to a state between two instructions, with less left
to do. -/
theorem Executed.between {op : Opcode} {b : UInt8} {s₁ s₂ : ExecutionState} (hs : Between fr s)
    (hfr : fr.analysis = analyzeLegacy fr.originalCode) (hb : fr.originalCode[s.codeIt]? = some b)
    (hop : Opcode.ofByte b = some op) (hchecked : Checked fr op s s₁)
    (hdone : Executed fr.rev fr.msg.gas.toInt fr.originalCode op s₁ s₂) :
    Between fr s₂ ∧ remaining fr s₂ < remaining fr s := by
  have hlt : s.codeIt < fr.originalCode.length := (List.getElem?_eq_some_iff.1 hb).1
  have hstart := hs.start.resolve_right (not_le.2 hlt)
  have hsize := instrSize_of_ofByte hop
  have hgas := hdone.gas_le.trans hchecked.paid.gas_le
  have hworth := hdone.worth_le.trans hchecked.paid.worth_le
  have hheight : (s₂.stack.length : ℤ) = s.stack.length + op.traits.stackHeightChange := by
    rw [hdone.height, hchecked.paid.stack]
  have hle : op.size ≤ 33 := by
    cases op with
    | push n => exact Nat.add_le_add_right (Nat.le_of_lt_succ n.isLt) 2
    | _ => exact (by decide : 1 ≤ 33)
  constructor
  · refine ⟨hdone.sane, hworth.trans hs.worth_le, ?_, ?_, ?_, hs.fits, hdone.refund⟩
    · have := stackHeightChange_le op
      have := hchecked.room
      have := hs.height
      omega
    · rcases hdone.codeIt with hnext | ⟨-, hjump⟩
      · rw [hnext, hchecked.paid.codeIt, ← hsize]
        exact .inl (hstart.next hb)
      · exact .inl ((getElem?_analyzeJumpdests _ _).1 hjump).1
    · rcases hdone.codeIt with hnext | ⟨-, hjump⟩
      · rw [hnext, hchecked.paid.codeIt]
        omega
      · have := (List.getElem?_eq_some_iff.1 hjump).1
        rw [length_analyzeJumpdests] at this
        omega
  · obtain ⟨c, hcost, hpaid⟩ := hchecked.cost
    have hexec : s.codeIt < fr.analysis.executableCode.length := by
      rw [hfr]
      simp only [analyzeLegacy, padCode, List.length_append]
      omega
    have hnonneg := hdone.sane.gas_nonneg
    unfold remaining
    rcases Nat.eq_zero_or_pos c with rfl | hpos
    · -- only `SSTORE` may cost nothing, and the next instruction is executed
      obtain rfl : op = .sstore :=
        eq_sstore_of_ends (Instr.mem_costless_of_gasCosts (Instr.gasCosts_of_baseCost hcost))
          hdone.goesOn
      have hnext : s₂.codeIt = s.codeIt + 1 := by
        rcases hdone.codeIt with hnext | ⟨hjump, -⟩
        · rw [hnext, hchecked.paid.codeIt]
          rfl
        · exact absurd hjump (by decide)
      have hle : s₂.gasLeft.toNat ≤ s.gasLeft.toNat := by omega
      have := Nat.mul_le_mul_right (fr.analysis.executableCode.length + 1) hle
      omega
    · -- the gas decreases
      have hdecrease : s₂.gasLeft.toNat + 1 ≤ s.gasLeft.toNat := by
        have := hdone.gas_le
        omega
      calc s₂.gasLeft.toNat * (fr.analysis.executableCode.length + 1) +
            (fr.analysis.executableCode.length - s₂.codeIt)
          < (s₂.gasLeft.toNat + 1) * (fr.analysis.executableCode.length + 1) := by
            rw [Nat.succ_mul]
            omega
        _ ≤ s.gasLeft.toNat * (fr.analysis.executableCode.length + 1) :=
            Nat.mul_le_mul_right _ hdecrease
        _ ≤ _ := Nat.le_add_right _ _

/-- An instruction of the code that has been checked. -/
theorem meets_impl_of_checked [Keccak] (hfr : fr.analysis = analyzeLegacy fr.originalCode)
    (hplain : Plain fr.rev fr.originalCode) (hs : Between fr s) {b : UInt8} {op : Opcode}
    (hb : fr.originalCode[s.codeIt]? = some b) (hop : Opcode.ofByte b = some op)
    {s₁ : ExecutionState} (h₁ : Checked fr op s s₁) : op ∉ newOpcodes ∧
      (impl op fr s₁).Meets (defined fr.rev fr.msg.gas.toInt)
        (Executed fr.rev fr.msg.gas.toInt fr.originalCode op s₁) := by
  have hlt : s.codeIt < fr.originalCode.length := (List.getElem?_eq_some_iff.1 hb).1
  have hstart := hs.start.resolve_right (not_le.2 hlt)
  have hcode : fr.analysis.executableCode.length = fr.originalCode.length + 33 := by
    rw [hfr]
    simp [analyzeLegacy, padCode, padding]
  obtain ⟨c, hcost, hpaid⟩ := h₁.cost
  have hledger := hs.ledger h₁ hpaid
  have hnew : op ∉ newOpcodes := by
    rw [hfr] at hcost
    exact hplain _ b op hstart hb hop fun hnone => Option.some_ne_none c (hcost.symm.trans hnone)
  have hheight : s₁.stack.length = s.stack.length := congrArg List.length h₁.paid.stack
  refine ⟨hnew, meets_impl hfr hnew h₁.paid.sane hcost hledger
    (hheight ▸ h₁.required) (fun hchange => ?_) ?_⟩
  · have := h₁.room hchange
    have := hs.height
    omega
  · rw [h₁.paid.codeIt]
    omega

theorem meets_invoke [Keccak] (hfr : fr.analysis = analyzeLegacy fr.originalCode)
    (hplain : Plain fr.rev fr.originalCode) (hs : Between fr s) {b : UInt8} {op : Opcode}
    (hb : fr.originalCode[s.codeIt]? = some b) (hop : Opcode.ofByte b = some op) :
    (invoke op fr s).Meets (defined fr.rev fr.msg.gas.toInt) fun s' =>
      Between fr s' ∧ remaining fr s' < remaining fr s := by
  refine (meets_checkRequirements hs.sane op).bind fun s₁ h₁ => ?_
  refine (meets_impl_of_checked hfr hplain hs hb hop h₁).2.bind fun s₂ h₂ => ?_
  rw [if_pos (congrArg List.length h₁.paid.stack ▸ h₂.height)]
  exact h₂.between hs hfr hb hop h₁

/-- **A turn** of the loop ends the execution, or makes it shorter. -/
theorem meets_turn [Keccak] (hfr : fr.analysis = analyzeLegacy fr.originalCode)
    (hplain : Plain fr.rev fr.originalCode) (hs : Between fr s) :
    (turn fr s).Meets (defined fr.rev fr.msg.gas.toInt) fun s' =>
      Between fr s' ∧ remaining fr s' < remaining fr s := by
  have hbyte : fr.analysis.executableCode[s.codeIt]? =
      some (fr.originalCode[s.codeIt]?.getD 0) := by
    rw [hfr]
    exact getElem?_padCode hs.codeIt_le
  refine (meets_orFault_of_eq hbyte).bind ?_
  rintro _ rfl
  cases hb : fr.originalCode[s.codeIt]? with
  | none =>
    -- behind the code there is a `STOP`
    change (invoke .stop fr s).Meets _ _
    refine (meets_checkRequirements hs.sane .stop).bind fun s₁ h₁ => ?_
    obtain ⟨c, -, hpaid⟩ := h₁.cost
    have hledger := (hs.ledger h₁ hpaid).mono (Int.natCast_nonneg c)
    exact (meets_stopImpl fr _ h₁.paid.sane hledger).bind fun _ (h : False) => h.elim
  | some b =>
    dsimp only [Option.getD_some]
    cases hop : Opcode.ofByte b with
    | none => exact meets_halt (by decide) hs.sane.output
    | some op => exact meets_invoke hfr hplain hs hb hop

theorem between_start (hgas : Fits fr.rev fr.msg.gas.toInt) : Between fr (.start fr.msg) where
  sane := ⟨hgas.nonneg, fr.msg.gas.toInt_lt, rfl, Nat.zero_le _, Int64.le_refl _, rfl, rfl⟩
  worth_le := by
    have hmem : (ExecutionState.start fr.msg).memory = [] := rfl
    have hgas : (ExecutionState.start fr.msg).gasLeft = fr.msg.gas.toInt := rfl
    rw [worth, hmem, hgas]
    simp [memoryCost]
  height := Nat.zero_le _
  start := .inl .zero
  codeIt_le := Nat.zero_le _
  fits := hgas
  refund := by
    have hstart : (ExecutionState.start fr.msg).gasLeft = fr.msg.gas.toInt := rfl
    rw [hstart, sub_self]
    exact ⟨le_rfl, by simp [ExecutionState.start]⟩

/-- The execution of legacy code runs into no `Fault`, and does not use up its turns. -/
theorem meets_executeFrame [Keccak] (hfr : fr.analysis = analyzeLegacy fr.originalCode)
    (hplain : Plain fr.rev fr.originalCode) (hgas : Fits fr.rev fr.msg.gas.toInt) :
    (executeFrame fr).Meets (defined fr.rev fr.msg.gas.toInt) fun _ => False := by
  refine Dialogue.Meets.iterate_exits (remaining fr) (fun s hs => meets_turn hfr hplain hs)
    (between_start hgas) ?_
  rw [turns, Nat.succ_mul]
  change fr.msg.gas.toInt.toNat * (fr.analysis.executableCode.length + 1) +
    (fr.analysis.executableCode.length - 0) < _
  omega

/-- The result of an execution that has ended can be relied on. -/
theorem exists_makeResult {rev : Revision} {msg : Message} (h : Ended rev msg.gas.toInt s)
    (hgas : 0 ≤ msg.gas.toInt) : ∃ r, makeResult s = some r ∧ Reliable rev (.call msg) r := by
  unfold makeResult
  have hassert : ¬(s.outputSize = 0 ∧ s.outputOffset ≠ 0) := fun hout => hout.2 (h.noOutput hout.1)
  have houtput : ¬(s.outputSize ≠ 0 ∧ s.memory.length < s.outputOffset + s.outputSize) :=
    fun hout => absurd (h.output hout.1) (not_le.2 hout.2)
  rw [if_neg hassert, if_neg houtput]
  have hlt := msg.gas.toInt_lt
  have hleft : 0 ≤ (if s.status = statusSuccess ∨ s.status = statusRevert then
        Int64.ofInt s.gasLeft else 0).toInt ∧
      (if s.status = statusSuccess ∨ s.status = statusRevert then
        Int64.ofInt s.gasLeft else 0).toInt ≤ msg.gas.toInt := by
    split
    · next hstatus =>
      have hgas := h.gas hstatus
      rwa [Int64.toInt_ofInt_of_le (by omega) (by omega)]
    · exact ⟨le_rfl, hgas⟩
  refine ⟨_, rfl, Int64.le_iff_toInt_le.2 hleft.1, Int64.le_iff_toInt_le.2 hleft.2, ?_⟩
  dsimp only
  by_cases hstatus : s.status = statusSuccess
  · have hgas := h.gas (.inl hstatus)
    rw [if_pos (.inl hstatus), if_pos hstatus, Int64.toInt_ofInt_of_le (by omega) (by omega)]
    exact h.refund hstatus
  · rw [if_neg hstatus]
    exact ⟨le_rfl, mul_nonneg (Int.natCast_nonneg _) (by omega)⟩

/-- In the last revision `CALLF` and `RETF` are instructions of legacy code, and there is nothing to
call and nowhere to return to. -/
theorem exists_fault_of_retf [Keccak] (hfr : fr.analysis = analyzeLegacy fr.originalCode)
    (hrev : fr.rev = .prague) {b : UInt8} (hb : b = 0xb0 ∨ b = 0xb1)
    (hcode : fr.originalCode[s.codeIt]? = some b) (hstack : s.callStack = [])
    (hgas : 5 ≤ s.gasLeft ∧ s.gasLeft < 2 ^ 63) : ∃ f, turn fr s = .exit (.fault f) := by
  have hi : s.codeIt < fr.originalCode.length := (List.getElem?_eq_some_iff.1 hcode).1
  have hbyte : fr.analysis.executableCode[s.codeIt]? = some b := by
    rw [hfr]
    exact (getElem?_padCode (by omega)).trans (by rw [hcode]; rfl)
  have hcharge : ∀ c : ℕ, c ≤ 5 → charge c s = .ret { s with gasLeft := s.gasLeft - c } := by
    intro c hc
    rw [charge, int64, if_pos (by omega)]
    exact if_neg (by omega)
  have hversion : fr.analysis.eofHeader = {} := by rw [hfr, analyzeLegacy]
  rw [turn, hbyte]
  rcases hb with rfl | rfl
  · have hcost : Instr.baseCost .prague 0 .callf = some 5 := by decide
    have hcheck : checkRequirements .callf fr s = .ret { s with gasLeft := s.gasLeft - 5 } := by
      unfold checkRequirements
      rw [hrev, hversion, hcost]
      exact hcharge 5 le_rfl
    change ∃ f, invoke .callf fr s = _
    rw [invoke, hcheck]
    change ∃ f, (Instr.callf fr { s with gasLeft := s.gasLeft - 5 } >>= _) = _
    rw [Instr.callf]
    cases readUint16Be fr.analysis.executableCode (s.codeIt + 1) with
    | none => exact ⟨.code, rfl⟩
    | some index =>
      rw [hversion]
      exact ⟨.header, rfl⟩
  · have hcost : Instr.baseCost .prague 0 .retf = some 3 := by decide
    have hcheck : checkRequirements .retf fr s = .ret { s with gasLeft := s.gasLeft - 3 } := by
      unfold checkRequirements
      rw [hrev, hversion, hcost]
      exact hcharge 3 (by decide)
    change ∃ f, invoke .retf fr s = _
    rw [invoke, hcheck]
    change ∃ f, (Instr.retf fr { s with gasLeft := s.gasLeft - 3 } >>= _) = _
    rw [Instr.retf, hstack]
    exact ⟨.callStack, rfl⟩

end Run

/-- The last revision refunds nothing, so no gas is too much. -/
theorem fits_prague {gas : ℤ} (h : 0 ≤ gas) : Fits .prague gas := ⟨h, by simp [refundRate]⟩

/-- What the execution of a message does if the answers can be relied on: it runs into no `Fault`,
and it returns a result that can be relied on as well. -/
def returning (rev : Revision) (msg : Message) : Dialogue.Terms HostCall HostCall.Answer Exit where
  question := HasGas rev
  answer := Reliable rev
  exit
    | .halt s => ∃ r, makeResult s = some r ∧ Reliable rev (.call msg) r
    | .fault _ => False

/-- `PUSH1 1 PUSH1 0 RETURN`. -/
def returnByte : Bytes := [0x60, 1, 0x60, 0, 0xf3]

theorem legacyCode_returnByte : LegacyCode .prague returnByte :=
  ⟨rfl, plain_of_all (by decide), by decide⟩

/-- A `CALL` of the account zero with nothing, and then `STOP`. -/
def callZero : Bytes := [0x60, 0, 0x60, 0, 0x60, 0, 0x60, 0, 0x60, 0, 0x60, 0, 0x5a, 0xf1, 0]

theorem legacyCode_callZero : LegacyCode .prague callZero :=
  ⟨rfl, plain_of_all (by decide), by decide⟩

/-- A call with some gas. -/
def callWithGas (gas : Int64) : Message where
  kind := .call
  gas := gas
  recipient := .zero 20
  sender := .zero 20
  inputData := []
  codeAddress := .zero 20

/-- **What holds between two instructions**, after any number of them: the execution stands where an
instruction of the code starts, or behind the code; the stack is not too high; and the memory has
been paid for with the gas that is no longer there. -/
theorem between_of_legacyCode [Keccak] {rev : Revision} {code : Bytes}
    (hcode : LegacyCode rev code) {msg : Message} (hgas : Fits rev msg.gas.toInt) (turns : ℕ) :
    (dispatch ⟨msg, rev, code, analyzeLegacy code⟩ turns (.start msg)).Meets
      (defined rev msg.gas.toInt) fun s =>
        (InstrStart code s.codeIt ∨ code.length ≤ s.codeIt) ∧ s.stack.length ≤ stackLimit ∧
          memoryCost (s.memory.length / 32) ≤ msg.gas.toInt - s.gasLeft := by
  have hrun := Dialogue.Meets.iterate (t := defined rev msg.gas.toInt)
    (I := Between ⟨msg, rev, code, analyzeLegacy code⟩)
    (fun s hs => (meets_turn rfl hcode.plain hs).imp fun _ h => h.1) turns (between_start hgas)
  refine hrun.imp fun s hs => ⟨hs.start, hs.height, ?_⟩
  have hworth := hs.worth_le
  unfold worth at hworth
  dsimp only at hworth
  omega

theorem between_of_legacyCode_call :
    let _ : Keccak := Sponge.keccak
    (dispatch ⟨callWithGas 10000, .prague, callZero, analyzeLegacy callZero⟩ 8
      (.start (callWithGas 10000))).Meets (defined .prague (callWithGas 10000).gas.toInt) fun s =>
        (InstrStart callZero s.codeIt ∨ callZero.length ≤ s.codeIt) ∧
          s.stack.length ≤ stackLimit ∧
          memoryCost (s.memory.length / 32) ≤ (callWithGas 10000).gas.toInt - s.gasLeft := by
  intro _
  exact between_of_legacyCode legacyCode_callZero (fits_prague (by decide)) 8

end Evm

end WeakChain
