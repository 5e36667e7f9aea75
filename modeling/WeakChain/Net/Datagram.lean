import WeakChain.Net.SignedData

/-!
# Reading a datagram

`parse_3_strs` is the first thing that is done with a message from the network, before any signature
is checked.  It moves one iterator by the lengths that it finds in the message and compares it with
the end of the message only in between, by equality.  So the model follows the iterator into what
lies behind the message (`memory`) and writes down every position that is read (`Scan`).

`safe_iff` says which messages are read safely.  On these the result is `SignedData.parse3Strs`
(`exists_returned_of_complete`); in every other one the iterator passes the end, and `parse_3_strs`
does not return (`not_returned_of_not_complete`).
-/

namespace WeakChain

namespace Datagram

/-- The message, and what lies behind it in the memory. -/
def memory (s : Bytes) (behind : ℕ → UInt8) (i : ℕ) : UInt8 := s.getD i (behind i)

/-- Where the iterator is, and the positions that have been read. -/
structure Scan where
  /-- `it - s.begin()`. -/
  it : ℕ
  /-- The positions, the last one at the end. -/
  reads : List ℕ

/-- Everything in front of the iterator has been read, from left to right. -/
def Scan.upTo (it : ℕ) : Scan := ⟨it, List.range it⟩

/-- `*(it++)`. -/
def Scan.next (m : ℕ → UInt8) (c : Scan) : UInt8 × Scan := (m c.it, ⟨c.it + 1, c.reads ++ [c.it]⟩)

/-- `for (int i = 0; i < n; i++) s += *(it++)`. -/
def Scan.append (m : ℕ → UInt8) : ℕ → Scan → Bytes × Scan
  | 0, c => ([], c)
  | n + 1, c =>
    let b := c.next m
    let r := b.2.append m n
    (b.1 :: r.1, r.2)

/-- `while (it != end) s += *(it++)`; nothing if it is still running. -/
def Scan.appendUntil (m : ℕ → UInt8) (e : ℕ) : ℕ → Scan → Option Bytes × Scan
  | 0, c => (if c.it = e then some [] else none, c)
  | fuel + 1, c =>
    if c.it = e then (some [], c)
    else
      let b := c.next m
      let r := b.2.appendUntil m e fuel
      (r.1.map (b.1 :: ·), r.2)

/-- How far `parse_3_strs` has come. -/
inductive Outcome
  /-- It has returned. -/
  | returned (r : Option (Bytes × Bytes × Bytes))
  /-- `reserve` has thrown a `length_error`. -/
  | thrown
  /-- The last loop is still running. -/
  | running

/-- The last loop of `parse_3_strs`, and what is returned after it. -/
def parseLast (m : ℕ → UInt8) (e fuel : ℕ) (s₁ s₂ : Bytes) (c : Scan) : Outcome × Scan :=
  let r₃ := c.appendUntil m e fuel
  match r₃.1 with
  | some s₃ => (.returned (some (s₁, s₂, s₃)), r₃.2)
  | none => (.running, r₃.2)

/-- `parse_3_strs`.  What `reserve` is called with is a `size_t`, and if the difference is negative
then it is more than any string can have. -/
def parse3Strs (s : Bytes) (behind : ℕ → UInt8) (fuel : ℕ) : Outcome × Scan :=
  if s.length < 2 then (.returned none, .upTo 0)
  else
    let m := memory s behind
    let b₁ := (Scan.upTo 0).next m
    -- a `uint8_t`: one more than 255 is zero
    let l₁ := b₁.1 + 1
    let r₁ := b₁.2.append m l₁.toNat
    if r₁.2.it = s.length then (.returned (some (r₁.1, [], [])), r₁.2)
    else
      let b₂ := r₁.2.next m
      let l₂ := b₂.1
      let r₂ := b₂.2.append m l₂.toNat
      if r₂.2.it = s.length then (.returned (some (r₁.1, r₂.1, [])), r₂.2)
      else if s.length < l₁.toNat + l₂.toNat then (.thrown, r₂.2)
      else parseLast m s.length fuel r₁.1 r₂.1 r₂.2

/-- The message is as long as its length bytes announce, if the first of them announces `size`. -/
def Complete (size : UInt8 → ℕ) : Bytes → Prop
  | [] => False
  | l₁ :: rest => size l₁ ≤ rest.length ∧
      ∀ l₂ ∈ rest[size l₁]?, size l₁ + 1 + l₂.toNat ≤ rest.length

instance (size : UInt8 → ℕ) : ∀ s, Decidable (Complete size s)
  | [] => .isFalse id
  | l₁ :: rest => inferInstanceAs (Decidable (size l₁ ≤ rest.length ∧
      ∀ l₂ ∈ rest[size l₁]?, size l₁ + 1 + l₂.toNat ≤ rest.length))

/-- The size as `parse_3_strs` computes it: after 255 there are no bytes. -/
def sizeRead (l : UInt8) : ℕ := (l + 1).toNat

/-- One more than the byte: after 255 there are 256 bytes. -/
def sizeMeant (l : UInt8) : ℕ := l.toNat + 1

/-- Reading the message is safe, whatever lies behind it: `parse_3_strs` returns, it reads positions
of the message only, and the result is nothing if the message is shorter than announced. -/
structure Safe (size : UInt8 → ℕ) (s : Bytes) : Prop where
  returns : ∀ behind, ∃ fuel r, (parse3Strs s behind fuel).1 = .returned r
  inside : ∀ behind fuel, ∀ i ∈ (parse3Strs s behind fuel).2.reads, i < s.length
  short : ¬Complete size s → ∀ behind, ∃ fuel, (parse3Strs s behind fuel).1 = .returned none

/-! ### The loops -/

theorem memory_of_lt {s : Bytes} {i : ℕ} (h : i < s.length) (behind : ℕ → UInt8) :
    memory s behind i = s[i] := by
  rw [memory, List.getD_eq_getElem?_getD, List.getElem?_eq_getElem h, Option.getD_some]

theorem memory_of_drop {s t : Bytes} {c : UInt8} {i : ℕ} (h : s.drop i = c :: t)
    (behind : ℕ → UInt8) : memory s behind i = c := by
  rw [memory, List.getD_eq_getElem?_getD, ← List.head?_drop, h]
  rfl

theorem map_memory {s : Bytes} {p n : ℕ} (h : p + n ≤ s.length) (behind : ℕ → UInt8) :
    (List.range' p n).map (memory s behind) = (s.drop p).take n := by
  refine List.ext_getElem (by simp; omega) fun i hi _ => ?_
  have hn : i < n := by simpa using hi
  rw [List.getElem_map, List.getElem_range', Nat.one_mul, memory_of_lt (by omega),
    List.getElem_take, List.getElem_drop]

namespace Scan

@[simp] theorem it_upTo (p : ℕ) : (upTo p).it = p := rfl

@[simp] theorem mem_reads_upTo {i p : ℕ} : i ∈ (upTo p).reads ↔ i < p := List.mem_range

@[simp] theorem next_upTo (m : ℕ → UInt8) (p : ℕ) : (upTo p).next m = (m p, upTo (p + 1)) := by
  rw [next, upTo, upTo, List.range_succ]

@[simp] theorem append_upTo (m : ℕ → UInt8) (n p : ℕ) :
    (upTo p).append m n = ((List.range' p n).map m, upTo (p + n)) := by
  induction n generalizing p with
  | zero => rfl
  | succ n ih =>
    rw [append, next_upTo, ih, List.range'_succ, List.map_cons, Nat.succ_add_eq_add_succ]

@[simp] theorem appendUntil_upTo_self (m : ℕ → UInt8) (fuel e : ℕ) :
    (upTo e).appendUntil m e fuel = (some [], upTo e) := by
  cases fuel with
  | zero => rw [appendUntil, it_upTo, if_pos rfl]
  | succ fuel => rw [appendUntil, it_upTo, if_pos rfl]

theorem appendUntil_upTo_succ {e p : ℕ} (m : ℕ → UInt8) (fuel : ℕ) (h : p ≠ e) :
    (upTo p).appendUntil m e (fuel + 1) =
      (((upTo (p + 1)).appendUntil m e fuel).1.map (m p :: ·),
        ((upTo (p + 1)).appendUntil m e fuel).2) := by
  rw [appendUntil, it_upTo, if_neg h, next_upTo]

theorem appendUntil_of_le {e p : ℕ} (m : ℕ → UInt8) (fuel : ℕ) (h : p ≤ e) :
    (upTo p).appendUntil m e fuel =
      (if e - p ≤ fuel then some ((List.range' p (e - p)).map m) else none,
        upTo (p + min fuel (e - p))) := by
  induction fuel generalizing p with
  | zero =>
    rcases Nat.eq_or_lt_of_le h with rfl | hp
    · simp
    · rw [appendUntil, it_upTo, if_neg (by omega), if_neg (by omega), Nat.zero_min, Nat.add_zero]
  | succ fuel ih =>
    rcases Nat.eq_or_lt_of_le h with rfl | hp
    · simp
    · obtain ⟨d, hd, hd'⟩ : ∃ d, e - p = d + 1 ∧ e - (p + 1) = d := ⟨e - p - 1, by omega, by omega⟩
      rw [appendUntil_upTo_succ m fuel (by omega), ih hp, hd, hd', List.range'_succ, List.map_cons,
        Nat.add_min_add_right, Nat.succ_add_eq_add_succ]
      simp only [Nat.add_le_add_iff_right, Option.map_if]

/-- A loop that has passed the end goes on. -/
theorem appendUntil_of_lt {e p : ℕ} (m : ℕ → UInt8) (fuel : ℕ) (h : e < p) :
    (upTo p).appendUntil m e fuel = (none, upTo (p + fuel)) := by
  induction fuel generalizing p with
  | zero => rw [appendUntil, it_upTo, if_neg (by omega), Nat.add_zero]
  | succ fuel ih =>
    rw [appendUntil_upTo_succ m fuel (by omega), ih (by omega), Nat.succ_add_eq_add_succ]
    rfl

end Scan

/-! ### Where the iterator goes -/

section Message

variable {s : Bytes} {behind : ℕ → UInt8} {n₁ n₂ : ℕ}

theorem parse3Strs_eq (hs : 2 ≤ s.length) (h₁ : sizeRead (memory s behind 0) = n₁)
    (h₂ : (memory s behind (1 + n₁)).toNat = n₂) (fuel : ℕ) :
    parse3Strs s behind fuel =
      if 1 + n₁ = s.length then
        (.returned (some ((List.range' 1 n₁).map (memory s behind), [], [])), .upTo (1 + n₁))
      else if 1 + n₁ + 1 + n₂ = s.length then
        (.returned (some ((List.range' 1 n₁).map (memory s behind),
          (List.range' (1 + n₁ + 1) n₂).map (memory s behind), [])), .upTo (1 + n₁ + 1 + n₂))
      else if s.length < n₁ + n₂ then (.thrown, .upTo (1 + n₁ + 1 + n₂))
      else parseLast (memory s behind) s.length fuel ((List.range' 1 n₁).map (memory s behind))
        ((List.range' (1 + n₁ + 1) n₂).map (memory s behind)) (.upTo (1 + n₁ + 1 + n₂)) := by
  subst h₁ h₂
  rw [parse3Strs, if_neg (by omega)]
  simp only [Scan.next_upTo, Scan.append_upTo, Scan.it_upTo, Nat.zero_add]
  rfl

/-- A message is complete if the iterator stands at the end, or not behind it, when it is compared
with the end. -/
theorem complete_iff (hs : s ≠ []) (h₁ : sizeRead (memory s behind 0) = n₁)
    (h₂ : (memory s behind (1 + n₁)).toNat = n₂) :
    Complete sizeRead s ↔ 1 + n₁ = s.length ∨ 1 + n₁ + 1 + n₂ ≤ s.length := by
  obtain ⟨l₁, rest, rfl⟩ := List.exists_cons_of_ne_nil hs
  have hsize : sizeRead l₁ = n₁ := h₁
  rw [Complete, hsize, List.length_cons]
  by_cases hn : n₁ < rest.length
  · have hl₂ : (rest[n₁]).toNat = n₂ := by
      rw [← h₂, Nat.add_comm 1, memory_of_lt (by simpa using hn), List.getElem_cons_succ]
    simp only [List.getElem?_eq_getElem hn, Option.mem_some_iff, forall_eq', hl₂]
    omega
  · simp only [List.getElem?_eq_none (Nat.le_of_not_lt hn), Option.not_mem_none, false_imp_iff,
      implies_true, and_true]
    omega

/-- The first string takes everything. -/
theorem parse3Strs_of_eq (hs : 2 ≤ s.length) (h₁ : sizeRead (memory s behind 0) = n₁)
    (hend : 1 + n₁ = s.length) (fuel : ℕ) :
    parse3Strs s behind fuel =
      (.returned (some (s.tail, [], [])), .upTo s.length) := by
  rw [parse3Strs_eq hs h₁ rfl, if_pos hend, map_memory (by omega), hend, List.drop_one,
    List.take_of_length_le (by rw [List.length_tail]; omega)]

/-- The first two strings end at the end of the message at the latest. -/
theorem parse3Strs_of_le (hs : 2 ≤ s.length) (h₁ : sizeRead (memory s behind 0) = n₁)
    (h₂ : (memory s behind (1 + n₁)).toNat = n₂) (hle : 1 + n₁ + 1 + n₂ ≤ s.length) (fuel : ℕ) :
    parse3Strs s behind fuel =
      parseLast (memory s behind) s.length fuel ((s.drop 1).take n₁)
        ((s.drop (1 + n₁ + 1)).take n₂) (.upTo (1 + n₁ + 1 + n₂)) := by
  have hs₁ : 1 + n₁ ≤ s.length := by omega
  rw [parse3Strs_eq hs h₁ h₂, map_memory hs₁, map_memory hle]
  split_ifs with h0 hend hthrow
  · omega
  · rw [parseLast, hend, Scan.appendUntil_upTo_self]
  · omega
  · rfl

/-- The iterator passes the end. -/
theorem parse3Strs_of_lt (hs : 2 ≤ s.length) (h₁ : sizeRead (memory s behind 0) = n₁)
    (h₂ : (memory s behind (1 + n₁)).toNat = n₂) (hne : 1 + n₁ ≠ s.length)
    (hlt : s.length < 1 + n₁ + 1 + n₂) (fuel : ℕ) :
    (∀ r, (parse3Strs s behind fuel).1 ≠ .returned r) ∧
      s.length ∈ (parse3Strs s behind fuel).2.reads := by
  rw [parse3Strs_eq hs h₁ h₂, if_neg hne, if_neg (by omega)]
  split_ifs with hthrow
  · exact ⟨nofun, Scan.mem_reads_upTo.2 hlt⟩
  · rw [parseLast, Scan.appendUntil_of_lt _ _ hlt]
    exact ⟨nofun, Scan.mem_reads_upTo.2 (by omega)⟩

/-- What `SignedData.parse3Strs` gives where the first string takes everything. -/
theorem signedData_of_eq (hs : 2 ≤ s.length) (h₁ : sizeRead (memory s behind 0) = n₁)
    (hend : 1 + n₁ = s.length) : SignedData.parse3Strs s = some (s.tail, [], []) := by
  rcases s with _ | ⟨l₁, _ | ⟨b, rest⟩⟩
  · cases hs
  · exact absurd hs (by simp)
  · have hsize : (l₁ + 1).toNat = n₁ := h₁
    have hlen : (b :: rest).length = n₁ := by
      rw [List.length_cons] at hend
      omega
    rw [SignedData.parse3Strs]
    · simp only [hsize]
      rw [if_neg (by omega), List.drop_of_length_le (by omega), List.take_of_length_le (by omega)]
      rfl
    · simp

/-- What it gives where there is a second string. -/
theorem signedData_of_le (hs : 2 ≤ s.length) (h₁ : sizeRead (memory s behind 0) = n₁)
    (h₂ : (memory s behind (1 + n₁)).toNat = n₂) (hle : 1 + n₁ + 1 + n₂ ≤ s.length) :
    SignedData.parse3Strs s = some ((s.drop 1).take n₁, (s.drop (1 + n₁ + 1)).take n₂,
      s.drop (1 + n₁ + 1 + n₂)) := by
  rcases s with _ | ⟨l₁, _ | ⟨b, rest⟩⟩
  · cases hs
  · exact absurd hs (by simp)
  · have hsize : (l₁ + 1).toNat = n₁ := h₁
    have hlen : n₁ < (b :: rest).length := by
      rw [List.length_cons] at hle
      omega
    obtain ⟨l₂, rest', hdrop⟩ : ∃ l₂ rest', (b :: rest).drop n₁ = l₂ :: rest' :=
      List.exists_cons_of_ne_nil (by rw [Ne, List.drop_eq_nil_iff]; omega)
    have hdrop' : (l₁ :: b :: rest).drop (1 + n₁) = l₂ :: rest' := by
      rw [Nat.add_comm, List.drop_succ_cons, hdrop]
    have hl₂ : l₂.toNat = n₂ := by rw [← h₂, memory_of_drop hdrop']
    have hrest' : (l₁ :: b :: rest).drop (1 + n₁ + 1) = rest' := by
      rw [← List.drop_drop, hdrop', List.drop_one, List.tail_cons]
    have hrest : ¬rest'.length < n₂ := by
      have hlen' := congrArg List.length hrest'
      rw [List.length_drop] at hlen'
      omega
    rw [SignedData.parse3Strs]
    · simp only [hsize, hdrop, hl₂]
      rw [if_neg (by omega), if_neg hrest, ← List.drop_drop (i := n₂), hrest']
      rfl
    · simp

end Message

/-- The sizes that are read in a complete message. -/
theorem Complete.exists_sizes {s : Bytes} (h : Complete sizeRead s) (hs : 2 ≤ s.length)
    (behind : ℕ → UInt8) :
    ∃ n₁ n₂, sizeRead (memory s behind 0) = n₁ ∧ (memory s behind (1 + n₁)).toNat = n₂ ∧
      (1 + n₁ = s.length ∨ 1 + n₁ + 1 + n₂ ≤ s.length) :=
  ⟨_, _, rfl, rfl, (complete_iff (List.ne_nil_of_length_pos (by omega)) rfl rfl).1 h⟩

/-- **Messages that are not complete.**  `parse_3_strs` does not return, whatever lies behind the
message, and it reads behind the end. -/
theorem not_returned_of_not_complete {s : Bytes} (h : ¬Complete sizeRead s) (hs : 2 ≤ s.length)
    (behind : ℕ → UInt8) (fuel : ℕ) : (∀ r, (parse3Strs s behind fuel).1 ≠ .returned r) ∧
      s.length ∈ (parse3Strs s behind fuel).2.reads := by
  obtain ⟨n₁, h₁⟩ : ∃ n₁, sizeRead (memory s behind 0) = n₁ := ⟨_, rfl⟩
  obtain ⟨n₂, h₂⟩ : ∃ n₂, (memory s behind (1 + n₁)).toNat = n₂ := ⟨_, rfl⟩
  have hends := mt (complete_iff (List.ne_nil_of_length_pos (by omega)) h₁ h₂).2 h
  exact parse3Strs_of_lt hs h₁ h₂ (by omega) (by omega) fuel

/-- **Complete messages.**  The result is that of `SignedData.parse3Strs`, whatever lies behind the
message. -/
theorem exists_returned_of_complete {s : Bytes} (h : Complete sizeRead s) (hs : 2 ≤ s.length)
    (behind : ℕ → UInt8) {fuel : ℕ} (hfuel : s.length ≤ fuel) :
    ∃ r, SignedData.parse3Strs s = some r ∧
      (parse3Strs s behind fuel).1 = .returned (some r) := by
  obtain ⟨n₁, n₂, h₁, h₂, hend | hle⟩ := h.exists_sizes hs behind
  · refine ⟨_, signedData_of_eq hs h₁ hend, ?_⟩
    rw [parse3Strs_of_eq hs h₁ hend]
  · refine ⟨_, signedData_of_le hs h₁ h₂ hle, ?_⟩
    have hlast : (s.drop (1 + n₁ + 1 + n₂)).length ≤ s.length - (1 + n₁ + 1 + n₂) :=
      Nat.le_of_eq List.length_drop
    rw [parse3Strs_of_le hs h₁ h₂ hle, parseLast, Scan.appendUntil_of_le _ _ hle,
      if_pos (by omega), map_memory (by omega), List.take_of_length_le hlast]

/-- The iterator does not pass the end of a complete message. -/
theorem lt_of_complete {s : Bytes} (h : Complete sizeRead s) (hs : 2 ≤ s.length)
    (behind : ℕ → UInt8) (fuel : ℕ) : ∀ i ∈ (parse3Strs s behind fuel).2.reads, i < s.length := by
  obtain ⟨n₁, n₂, h₁, h₂, hsizes⟩ := h.exists_sizes hs behind
  intro i hi
  rcases hsizes with hend | hle
  · rw [parse3Strs_of_eq hs h₁ hend] at hi
    exact Scan.mem_reads_upTo.1 hi
  · rw [parse3Strs_of_le hs h₁ h₂ hle, parseLast, Scan.appendUntil_of_le _ _ hle] at hi
    split_ifs at hi
    · rw [Scan.mem_reads_upTo] at hi
      omega
    · rw [Scan.mem_reads_upTo] at hi
      omega

theorem parse3Strs_of_short {s : Bytes} (hs : s.length < 2) (behind : ℕ → UInt8) (fuel : ℕ) :
    parse3Strs s behind fuel = (.returned none, .upTo 0) := if_pos hs

/-- The result is nothing only for a message of less than two bytes. -/
theorem ne_returned_none {s : Bytes} (hs : 2 ≤ s.length) (behind : ℕ → UInt8) (fuel : ℕ) :
    (parse3Strs s behind fuel).1 ≠ .returned none := by
  by_cases h : Complete sizeRead s
  · obtain ⟨n₁, n₂, h₁, h₂, hend | hle⟩ := h.exists_sizes hs behind
    · rw [parse3Strs_of_eq hs h₁ hend]
      nofun
    · rw [parse3Strs_of_le hs h₁ h₂ hle, parseLast]
      split
      · nofun
      · nofun
  · exact (not_returned_of_not_complete h hs behind fuel).1 none

/-- Whatever 255 announces, a message that is as long as announced is as long as it is read. -/
theorem Complete.read {s : Bytes} (h : Complete sizeMeant s) : Complete sizeRead s := by
  rcases s with _ | ⟨l₁, rest⟩
  · exact h
  · obtain ⟨hlen, hl₂⟩ := h
    by_cases h255 : l₁ = 255
    · -- no bytes are read, and then at most 255
      subst h255
      have hlen' : 256 ≤ rest.length := hlen
      refine ⟨Nat.zero_le _, fun l₂ _ => ?_⟩
      have hl₂' : l₂.toNat < 256 := l₂.toNat_lt
      have hzero : sizeRead 255 = 0 := rfl
      omega
    · have hsize : sizeRead l₁ = sizeMeant l₁ := by
        have hlt : l₁.toNat < 256 := l₁.toNat_lt
        have hne : l₁.toNat ≠ 255 := fun h => h255 (UInt8.toNat_inj.1 h)
        rw [sizeRead, sizeMeant, UInt8.toNat_add]
        exact Nat.mod_eq_of_lt (by rw [UInt8.toNat_one]; omega)
      refine ⟨hsize ▸ hlen, hsize ▸ hl₂⟩

theorem safe_of_complete {s : Bytes} {size : UInt8 → ℕ} (hsize : Complete size s)
    (h : Complete sizeRead s) (hs : 2 ≤ s.length) : Safe size s where
  returns behind :=
    let ⟨r, _, hr⟩ := exists_returned_of_complete h hs behind (Nat.le_refl _)
    ⟨_, some r, hr⟩
  inside := lt_of_complete h hs
  short hnot := absurd hsize hnot

theorem safe_of_short {s : Bytes} {size : UInt8 → ℕ} (hs : s.length < 2) : Safe size s where
  returns behind := ⟨0, none, by rw [parse3Strs_of_short hs]⟩
  inside behind fuel i hi := by
    rw [parse3Strs_of_short hs, Scan.mem_reads_upTo] at hi
    omega
  short _ behind := ⟨0, by rw [parse3Strs_of_short hs]⟩

theorem complete_of_safe {s : Bytes} {size : UInt8 → ℕ} (hs : 2 ≤ s.length) (h : Safe size s) :
    Complete size s := by
  by_contra hnot
  obtain ⟨fuel, hnone⟩ := h.short hnot fun _ => 0
  exact ne_returned_none hs _ fuel hnone

end Datagram

end WeakChain
