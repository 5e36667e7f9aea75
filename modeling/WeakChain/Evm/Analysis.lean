import WeakChain.Evm.Opcode
import Mathlib.Data.List.Basic

/-!
# The analysis of code

Before the baseline interpreter runs a code it analyzes it.  Legacy code is padded, so that the
interpreter may read the data of a `PUSH32` at the very end and always finds a `STOP` behind the
code, and a map says where a jump may go.  Of a container of the other format (EOF) the header is
read, on trust: a read outside of the container has no result (`none`).

* `getElem?_analyzeJumpdests` : a jump may go where an instruction starts that is a `JUMPDEST`, and
  nowhere else.  Data of a `PUSH` that looks like one is not.
-/

namespace WeakChain

namespace Evm

/-! ### Legacy code -/

/-- `OP_PUSH1 <= op <= OP_PUSH32`, as a comparison of signed bytes. -/
def isPush (op : UInt8) : Bool := 0x60 ≤ op.toInt8

/-- The loop of `analyze_jumpdests`, from `i` on. -/
def analyzeLoop (code : Bytes) : ℕ → ℕ → List Bool → List Bool
  | 0, _, map => map
  | fuel + 1, i, map =>
    match code[i]? with
    | none => map
    | some op =>
      if isPush op then analyzeLoop code fuel (i + (op.toNat - 0x5f) + 1) map
      else if op = 0x5b then analyzeLoop code fuel (i + 1) (map.set i true)
      else analyzeLoop code fuel (i + 1) map

/-- `analyze_jumpdests`. -/
def analyzeJumpdests (code : Bytes) : List Bool :=
  analyzeLoop code code.length 0 (List.replicate code.length false)

/-- The padding: the data of a `PUSH32`, and a `STOP`. -/
def padding : ℕ := 32 + 1

/-- `pad_code`. -/
def padCode (code : Bytes) : Bytes := code ++ List.replicate padding 0

/-! ### The other format -/

/-- `EOFCodeType`. -/
structure EOFCodeType where
  inputs : UInt8
  outputs : UInt8
  maxStackHeight : UInt16
  deriving DecidableEq

/-- `EOF1Header`.  Version 0 means legacy code. -/
structure EOF1Header where
  version : UInt8 := 0
  codeSizes : List UInt16 := []
  codeOffsets : List UInt16 := []
  dataSize : UInt16 := 0
  types : List EOFCodeType := []
  deriving DecidableEq

/-- `is_eof_container`. -/
def isEofContainer (container : Bytes) : Bool :=
  1 < container.length && container[0]? == some 0xef && container[1]? == some 0x00

/-- `read_uint16_be`. -/
def readUint16Be (bs : Bytes) (i : ℕ) : Option UInt16 := do
  let h ← bs[i]?
  let l ← bs[i + 1]?
  pure ((h.toUInt16 <<< 8) ||| l.toUInt16)

/-- The sizes of `n` code sections. -/
def readCodeSizes (container : Bytes) : ℕ → ℕ → Option (List UInt16)
  | 0, _ => some []
  | n + 1, i => do
    let size ← readUint16Be container i
    let sizes ← readCodeSizes container n (i + 2)
    pure (size :: sizes)

/-- Add to the sizes of a section; there are four sections. -/
def addSizes (headers : List (List UInt16)) (sectionId : ℕ) (sizes : List UInt16) :
    Option (List (List UInt16)) := do
  let old ← headers[sectionId]?
  pure (headers.set sectionId (old ++ sizes))

/-- The loop over the section headers, from `i` on. -/
def readSections (container : Bytes) : ℕ → ℕ → List (List UInt16) → Option (List (List UInt16))
  | 0, _, _ => none
  | fuel + 1, i, headers => do
    let sectionId ← container[i]?
    if sectionId = 0x00 then pure headers
    else if sectionId = 0x02 then
      let num ← readUint16Be container (i + 1)
      let sizes ← readCodeSizes container num.toNat (i + 3)
      let headers ← addSizes headers 0x02 sizes
      readSections container fuel (i + 3 + 2 * num.toNat) headers
    else
      let size ← readUint16Be container (i + 1)
      let headers ← addSizes headers sectionId.toNat [size]
      readSections container fuel (i + 3) headers

/-- `eof_header_size`. -/
def eofHeaderSize (codeSizes : List UInt16) : ℕ := 2 + 1 + 2 * 3 + 1 + 2 + codeSizes.length * 2 + 1

/-- The loop over the types. -/
def readTypes (container : Bytes) : ℕ → ℕ → Option (List EOFCodeType)
  | 0, _ => some []
  | n + 1, i => do
    let inputs ← container[i]?
    let outputs ← container[i + 1]?
    let height ← readUint16Be container (i + 2)
    let types ← readTypes container n (i + 4)
    pure (⟨inputs, outputs, height⟩ :: types)

/-- The offsets of the code sections. -/
def codeOffsets : ℕ → List UInt16 → List UInt16
  | _, [] => []
  | offset, size :: sizes => UInt16.ofNat offset :: codeOffsets (offset + size.toNat) sizes

/-- `read_valid_eof1_header`. -/
def readValidEof1Header (container : Bytes) : Option EOF1Header := do
  let headers ← readSections container (container.length + 1) 3 [[], [], [], []]
  let version ← container[2]?
  let typeSize ← (← headers[1]?)[0]?
  let sizes ← headers[2]?
  let types ← readTypes container ((typeSize.toNat + 3) / 4) (eofHeaderSize sizes)
  let dataSize ← (← headers[3]?)[0]?
  pure { version, codeSizes := sizes, dataSize, types
         codeOffsets := codeOffsets (eofHeaderSize sizes + typeSize.toNat) sizes }

/-! ### The analysis -/

/-- `CodeAnalysis`. -/
structure CodeAnalysis where
  /-- What can be read from `executable_code.data()` on. -/
  executableCode : Bytes
  /-- Map of valid jump destinations. -/
  jumpdestMap : List Bool
  /-- The EOF header. -/
  eofHeader : EOF1Header

/-- `analyze_legacy`. -/
def analyzeLegacy (code : Bytes) : CodeAnalysis := ⟨padCode code, analyzeJumpdests code, {}⟩

/-- `analyze_eof1`. -/
def analyzeEof1 (container : Bytes) : Option CodeAnalysis := do
  let header ← readValidEof1Header container
  let offset ← header.codeOffsets[0]?
  pure ⟨container.drop offset.toNat, [], header⟩

/-- `analyze`. -/
def analyze (rev : Revision) (code : Bytes) : Option CodeAnalysis :=
  if rev < .cancun ∨ !isEofContainer code then some (analyzeLegacy code) else analyzeEof1 code

/-! ### Where jumps may go -/

/-- How many bytes an instruction of legacy code takes. -/
def instrSize (op : UInt8) : ℕ := if isPush op then op.toNat - 0x5f + 1 else 1

/-- An instruction starts here, when the code is read from its beginning. -/
inductive InstrStart (code : Bytes) : ℕ → Prop
  | zero : InstrStart code 0
  | next {i : ℕ} {op : UInt8} (h : InstrStart code i) (hop : code[i]? = some op) :
      InstrStart code (i + instrSize op)

theorem length_analyzeLoop (code : Bytes) (fuel i : ℕ) (map : List Bool) :
    (analyzeLoop code fuel i map).length = map.length := by
  induction fuel generalizing i map with
  | zero => rfl
  | succ fuel ih =>
    rw [analyzeLoop]
    split
    · rfl
    · split_ifs
      · exact ih _ _
      · rw [ih, List.length_set]
      · exact ih _ _

@[simp] theorem length_analyzeJumpdests (code : Bytes) :
    (analyzeJumpdests code).length = code.length := by
  rw [analyzeJumpdests, length_analyzeLoop, List.length_replicate]

/-- The instructions that start at `i` or later, when one starts at `i`. -/
inductive StartFrom (code : Bytes) : ℕ → ℕ → Prop
  | refl (i : ℕ) : StartFrom code i i
  | next {i j : ℕ} {op : UInt8} (hop : code[i]? = some op)
      (h : StartFrom code (i + instrSize op) j) : StartFrom code i j

theorem StartFrom.le {code : Bytes} {i j : ℕ} (h : StartFrom code i j) : i ≤ j := by
  induction h with
  | refl i => exact le_rfl
  | next hop h ih => omega

theorem StartFrom.tail {code : Bytes} {i j : ℕ} {op : UInt8} (h : StartFrom code i j)
    (hop : code[j]? = some op) : StartFrom code i (j + instrSize op) := by
  induction h with
  | refl i => exact .next hop (.refl _)
  | next hop' h ih => exact .next hop' (ih hop)

theorem instrStart_iff {code : Bytes} {j : ℕ} : InstrStart code j ↔ StartFrom code 0 j := by
  constructor
  · intro h
    induction h with
    | zero => exact .refl 0
    | next h hop ih => exact ih.tail hop
  · have hfrom : ∀ i, InstrStart code i → StartFrom code i j → InstrStart code j := by
      intro i hi h
      induction h with
      | refl i => exact hi
      | next hop h ih => exact ih (.next hi hop)
    exact hfrom 0 .zero

/-- The loop marks the `JUMPDEST` instructions from `i` on, and leaves the rest of the map as it
is. -/
theorem getElem?_analyzeLoop (code : Bytes) (fuel i j : ℕ) (map : List Bool)
    (hfuel : code.length ≤ i + fuel) (hlen : map.length = code.length) :
    (analyzeLoop code fuel i map)[j]? = some true ↔
      map[j]? = some true ∨ StartFrom code i j ∧ code[j]? = some 0x5b := by
  induction fuel generalizing i map with
  | zero =>
    rw [analyzeLoop, iff_self_or]
    rintro ⟨hstart, hj⟩
    have hle := hstart.le
    rw [List.getElem?_eq_none (by omega)] at hj
    cases hj
  | succ fuel ih =>
    rw [analyzeLoop]
    cases hop : code[i]? with
    | none =>
      rw [iff_self_or]
      rintro ⟨hstart, hj⟩
      have hle := hstart.le
      have hi := List.getElem?_eq_none_iff.1 hop
      rw [List.getElem?_eq_none (by omega)] at hj
      cases hj
    | some op =>
      -- the instruction at `i`, and those from the next one on
      have hstep : StartFrom code i j ↔ j = i ∨ StartFrom code (i + instrSize op) j := by
        constructor
        · intro h
          cases h with
          | refl => exact .inl rfl
          | next hop' h =>
            rw [hop] at hop'
            exact .inr (Option.some.inj hop' ▸ h)
        · rintro (rfl | h)
          · exact .refl _
          · exact .next hop h
      have hi : i < code.length := (List.getElem?_eq_some_iff.1 hop).1
      dsimp only
      split_ifs with hpush hdest
      · have hne : op ≠ 0x5b := by
          rintro rfl
          exact absurd hpush (by decide)
        have hsize : i + (op.toNat - 0x5f) + 1 = i + instrSize op := by
          rw [instrSize, if_pos hpush]
          omega
        rw [hsize, ih _ _ (by omega) hlen, hstep]
        have : ¬(j = i ∧ code[j]? = some 0x5b) := by
          rintro ⟨rfl, h⟩
          exact hne (Option.some.inj (hop.symm.trans h))
        tauto
      · have hsize : i + 1 = i + instrSize op := by rw [instrSize, if_neg hpush]
        subst hdest
        rw [hsize, ih _ _ (by omega) (by rw [List.length_set, hlen]), hstep, List.getElem?_set]
        by_cases hij : i = j
        · subst hij
          rw [if_pos rfl, if_pos (by omega)]
          exact iff_of_true (.inl rfl) (.inr ⟨.inl rfl, hop⟩)
        · have : j ≠ i := fun h => hij h.symm
          simp [hij, this]
      · have hsize : i + 1 = i + instrSize op := by rw [instrSize, if_neg hpush]
        rw [hsize, ih _ _ (by omega) hlen, hstep]
        have : ¬(j = i ∧ code[j]? = some 0x5b) := by
          rintro ⟨rfl, h⟩
          exact hdest (Option.some.inj (hop.symm.trans h))
        tauto

/-- **The map of jump destinations** of a legacy code has a mark where an instruction starts that is
a `JUMPDEST`, and nowhere else. -/
theorem getElem?_analyzeJumpdests (code : Bytes) (i : ℕ) :
    (analyzeJumpdests code)[i]? = some true ↔ InstrStart code i ∧ code[i]? = some 0x5b := by
  rw [analyzeJumpdests, getElem?_analyzeLoop _ _ _ _ _ (by omega) List.length_replicate,
    instrStart_iff, or_iff_right]
  intro h
  obtain ⟨hlt, h⟩ := List.getElem?_eq_some_iff.1 h
  rw [List.getElem_replicate] at h
  cases h

end Evm

end WeakChain
