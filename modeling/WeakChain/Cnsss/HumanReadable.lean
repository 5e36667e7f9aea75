import WeakChain.Lib.Search
import WeakChain.Net.SignedData

/-!
# Endpoints in the log

Nearly every handler of the consensus begins with a line of the log that names the sender, and
`make_endpoint_human_readable` cuts four bytes out of the endpoint for it.  It expects a public key
in PEM form, whose first line is always the same, and takes the bytes in front of the second line
break.  Neither of its searches is compared with the end of the string, and nothing counts the bytes
in front of what they find.

`ICnsssPrimaryBased.staysInside_iff` says for which endpoints this stays in the string.  Endpoints
with a PEM key are among them (`SslMsgMgr.staysInside_myEndpoint`); those that
`turn_addr_port_into_raw_endpoint` makes are so only by accident
(`staysInside_turnAddrPortIntoRawEndpoint_iff`).
-/

namespace WeakChain

/-- `turn_addr_port_into_raw_endpoint`. -/
def turnAddrPortIntoRawEndpoint (addrPort : Bytes) : Endpoint :=
  SignedData.serialize3Strs (ascii "<mock-pk>") addrPort []

namespace ICnsssPrimaryBased

open Search

/-- `make_endpoint_human_readable`, with the memory around the string, and at most `fuel` steps in
each search.  The result is nothing if a search is still running. -/
def makeEndpointHumanReadable (ep : Endpoint) (around : ℤ → UInt8) (fuel : ℕ) :
    Option Bytes × Trace :=
  if ep.length < 4 then (some ep, ⟨[], []⟩)
  else
    let m := memory ep around
    -- `ep.begin()`, `ep.begin() + 1` and `ep.end()`
    andThen (find m ep.length 10 fuel 1 ⟨[0, 1, ep.length], []⟩) fun it t =>
    andThen (find m ep.length 10 fuel (it + 1) (t.form (it + 1))) fun it2 t =>
    let r := copy m 4 (it2 - 4) (t.form (it2 - 4))
    (some r.1, r.2)

/-- Whatever lies around the string, `make_endpoint_human_readable` returns, and it forms and reads
iterators of the string only. -/
structure StaysInside (ep : Endpoint) : Prop where
  returns : ∀ around, ∃ fuel r, (makeEndpointHumanReadable ep around fuel).1 = some r
  within : ∀ around fuel, (makeEndpointHumanReadable ep around fuel).2.Within ep.length

/-- The first line break from a place on, or the end. -/
def lineBreak (ep : Endpoint) (p : ℕ) : ℕ := p + (ep.drop p).idxOf 10

variable {ep : Endpoint}

theorem lineBreak_le {p : ℕ} (hp : p ≤ ep.length) : lineBreak ep p ≤ ep.length := by
  have hidx := List.idxOf_le_length (l := ep.drop p) (a := 10)
  rw [List.length_drop] at hidx
  rw [lineBreak]
  omega

theorem lineBreak_lt_iff {p : ℕ} (hp : p ≤ ep.length) :
    lineBreak ep p < ep.length ↔ 10 ∈ ep.drop p := by
  rw [← List.idxOf_lt_length_iff, List.length_drop, lineBreak]
  omega

/-- A search from a place in the string ends at the line break. -/
theorem find_eq (around : ℤ → UInt8) {fuel p : ℕ} (hp : p ≤ ep.length) (hfuel : ep.length ≤ fuel)
    (t : Trace) :
    (find (memory ep around) ep.length 10 fuel p t).1 = some (lineBreak ep p : ℤ) := by
  have hle := lineBreak_le hp
  rw [lineBreak] at hle
  rw [find_fst ep around 10 fuel hp t, if_pos (by omega), lineBreak]

theorem eq_lineBreak {around : ℤ → UInt8} {fuel p : ℕ} (hp : p ≤ ep.length) {t : Trace} {it : ℤ}
    (h : (find (memory ep around) ep.length 10 fuel p t).1 = some it) : it = lineBreak ep p := by
  rw [find_fst ep around 10 fuel hp t] at h
  split_ifs at h
  exact (Option.some.inj h).symm

/-- **Where it goes right.**  The first search finds a line break, and what the second one ends at
has four bytes in front of it. -/
theorem lineBreak_iff (h4 : 4 ≤ ep.length) :
    lineBreak ep 1 < ep.length ∧ 4 ≤ lineBreak ep (lineBreak ep 1 + 1) ↔
      10 ∈ ep.tail ∧ (ep.tail.take 3).count 10 ≤ 1 := by
  rw [lineBreak_lt_iff (by omega), List.drop_one]
  refine and_congr_right fun _ => ?_
  obtain ⟨a, b, c, d, rest, rfl⟩ : ∃ a b c d rest, ep = a :: b :: c :: d :: rest := by
    rcases ep with _ | ⟨a, _ | ⟨b, _ | ⟨c, _ | ⟨d, rest⟩⟩⟩⟩
    all_goals simp at h4 ⊢
  by_cases hb : b = 10
  · by_cases hc : c = 10
    · simp [lineBreak, hb, hc]
    · by_cases hd : d = 10
      · simp [lineBreak, hb, hc, hd]
      · simp [lineBreak, hb, hc, hd]
        omega
  · by_cases hc : c = 10
    · by_cases hd : d = 10
      · simp [lineBreak, hb, hc, hd]
      · simp [lineBreak, hb, hc, hd]
        omega
    · have hthree : ([b, c, d].count 10) ≤ 1 := by
        rw [List.count_cons_of_ne hb, List.count_cons_of_ne hc]
        exact List.count_le_length
      refine iff_of_true ?_ hthree
      simp [lineBreak, hb, hc]
      omega

section Run

variable (around : ℤ → UInt8) {fuel : ℕ}

theorem makeEndpointHumanReadable_of_short (h4 : ep.length < 4) :
    makeEndpointHumanReadable ep around fuel = (some ep, ⟨[], []⟩) := if_pos h4

theorem lineBreak_of_notMem (h4 : 4 ≤ ep.length) (h : 10 ∉ ep.tail) :
    lineBreak ep 1 = ep.length := by
  have hle : lineBreak ep 1 ≤ ep.length := lineBreak_le (by omega)
  have hiff : lineBreak ep 1 < ep.length ↔ 10 ∈ ep.drop 1 := lineBreak_lt_iff (by omega)
  rw [List.drop_one] at hiff
  have hnot := mt hiff.1 h
  omega

/-- **No line break.**  The second search starts behind the end. -/
theorem formed_of_notMem (h4 : 4 ≤ ep.length) (hfuel : ep.length ≤ fuel) (h : 10 ∉ ep.tail) :
    (ep.length + 1 : ℤ) ∈ (makeEndpointHumanReadable ep around fuel).2.formed := by
  have hfirst := find_eq around (p := 1) (by omega) hfuel ⟨[0, 1, ep.length], []⟩
  rw [lineBreak_of_notMem h4 h, Int.natCast_one] at hfirst
  rw [makeEndpointHumanReadable, if_neg (by omega)]
  dsimp only
  rw [andThen_of_eq_some hfirst]
  have hformed : ∀ t : Trace, (ep.length + 1 : ℤ) ∈ (t.form (ep.length + 1)).formed :=
    fun t => Trace.mem_formed_form.2 (.inr rfl)
  refine formed_andThen (formed_find (hformed _)) fun it2 => formed_copy ?_
  exact Trace.mem_formed_form.2 (.inl (formed_find (hformed _)))

/-- Without a line break behind the end it does not come back either. -/
theorem not_returned_of_notMem (h4 : 4 ≤ ep.length) (h : 10 ∉ ep.tail)
    (hbehind : ∀ i : ℤ, ep.length < i → around i ≠ 10) :
    (makeEndpointHumanReadable ep around fuel).1 = none := by
  have hmemory : ∀ i, (ep.length + 1 : ℤ) ≤ i → memory ep around i ≠ 10 := by
    intro i hi
    rw [memory_of_le (by omega)]
    exact hbehind i (by omega)
  rw [makeEndpointHumanReadable, if_neg (by omega)]
  dsimp only
  cases hfirst : (find (memory ep around) ep.length 10 fuel 1 ⟨[0, 1, ep.length], []⟩).1 with
  | none => rw [andThen_of_eq_none hfirst]
  | some it =>
    obtain rfl := eq_lineBreak (p := 1) (by omega) hfirst
    rw [andThen_of_eq_some hfirst, lineBreak_of_notMem h4 h, andThen_of_eq_none]
    exact find_fst_of_lt fuel (by omega) hmemory _

/-- **A line break.**  Both searches end, and four bytes are copied from the place four bytes in
front of the second end. -/
theorem exists_copy_of_lt (hbreak : lineBreak ep 1 < ep.length) (h4 : 4 ≤ ep.length)
    (hfuel : ep.length ≤ fuel) : ∃ t : Trace,
      let it2 : ℤ := lineBreak ep (lineBreak ep 1 + 1)
      let r := copy (memory ep around) 4 (it2 - 4) (t.form (it2 - 4))
      makeEndpointHumanReadable ep around fuel = (some r.1, r.2) := by
  have hfirst := find_eq around (p := 1) (by omega) hfuel
  have hsecond := find_eq around (p := lineBreak ep 1 + 1) hbreak hfuel
  rw [Int.natCast_one] at hfirst
  rw [Int.natCast_succ] at hsecond
  rw [makeEndpointHumanReadable, if_neg (by omega)]
  dsimp only
  rw [andThen_of_eq_some (hfirst _), andThen_of_eq_some (hsecond _)]
  exact ⟨_, rfl⟩

/-- Fewer than four bytes in front of the second line break: an iterator in front of the string. -/
theorem formed_of_lt (hbreak : lineBreak ep 1 < ep.length) (h4 : 4 ≤ ep.length)
    (hfuel : ep.length ≤ fuel) :
    (lineBreak ep (lineBreak ep 1 + 1) - 4 : ℤ) ∈
      (makeEndpointHumanReadable ep around fuel).2.formed := by
  obtain ⟨t, ht⟩ := exists_copy_of_lt around hbreak h4 hfuel
  rw [ht]
  exact formed_copy (Trace.mem_formed_form.2 (.inr rfl))

/-- **The result**, where there is a line break and four bytes in front of the next one. -/
theorem makeEndpointHumanReadable_fst (hbreak : lineBreak ep 1 < ep.length)
    (h4 : 4 ≤ lineBreak ep (lineBreak ep 1 + 1)) (hfuel : ep.length ≤ fuel) :
    (makeEndpointHumanReadable ep around fuel).1 =
      some ((ep.drop (lineBreak ep (lineBreak ep 1 + 1) - 4)).take 4) := by
  have hle : lineBreak ep (lineBreak ep 1 + 1) ≤ ep.length := lineBreak_le hbreak
  obtain ⟨t, ht⟩ := exists_copy_of_lt around hbreak (Nat.le_trans h4 hle) hfuel
  obtain ⟨p, hp⟩ : ∃ p, lineBreak ep (lineBreak ep 1 + 1) = p + 4 :=
    ⟨_, (Nat.sub_add_cancel h4).symm⟩
  have hcast : ((p + 4 : ℕ) : ℤ) - 4 = p := by omega
  dsimp only at ht
  rw [hp, hcast] at ht
  rw [ht, hp, Nat.add_sub_cancel, copy_fst ep around (by omega)]

example : (makeEndpointHumanReadable (ascii "s-----\nMCowBQ\n-----") (fun _ => 0) 19).1 =
    some (ascii "owBQ") := by decide

/-- There it stays in the string at every time. -/
theorem within_makeEndpointHumanReadable (hbreak : lineBreak ep 1 < ep.length)
    (h4 : 4 ≤ lineBreak ep (lineBreak ep 1 + 1)) :
    (makeEndpointHumanReadable ep around fuel).2.Within ep.length := by
  have hle : lineBreak ep (lineBreak ep 1 + 1) ≤ ep.length := lineBreak_le hbreak
  have hstart : Trace.Within ⟨[0, 1, ep.length], []⟩ ep.length := by
    refine ⟨fun i hi => ?_, nofun⟩
    simp only [List.mem_cons, List.not_mem_nil, or_false] at hi
    omega
  have hfirst := hstart.find (memory ep around) 10 fuel (by omega : (0 : ℤ) ≤ 1) (by omega)
  have hsecond := (hfirst.form (by omega : (0 : ℤ) ≤ lineBreak ep 1 + 1) (by omega)).find
    (memory ep around) 10 fuel (by omega : (0 : ℤ) ≤ lineBreak ep 1 + 1) (by omega)
  rw [makeEndpointHumanReadable, if_neg (by omega)]
  refine hfirst.andThen fun it hit => ?_
  obtain rfl := eq_lineBreak (p := 1) (by omega) hit
  refine hsecond.andThen fun it2 hit2 => ?_
  obtain rfl := eq_lineBreak (p := lineBreak ep 1 + 1) hbreak hit2
  exact (hsecond.form (by omega) (by omega)).copy _ (by omega) (by omega)

end Run

theorem staysInside_of_short (h4 : ep.length < 4) : StaysInside ep where
  returns around := ⟨0, ep, by rw [makeEndpointHumanReadable_of_short around h4]⟩
  within around fuel := by
    rw [makeEndpointHumanReadable_of_short around h4]
    exact ⟨nofun, nofun⟩

theorem staysInside_iff_of_le (h4 : 4 ≤ ep.length) :
    StaysInside ep ↔ 10 ∈ ep.tail ∧ (ep.tail.take 3).count 10 ≤ 1 := by
  rw [← lineBreak_iff h4]
  constructor
  · intro h
    have hwithin := (h.within (fun _ => 0) ep.length).formed
    have hmem : 10 ∈ ep.tail := by
      by_contra hnot
      have hout := hwithin _ (formed_of_notMem _ h4 (Nat.le_refl _) hnot)
      omega
    have hbreak : lineBreak ep 1 < ep.length :=
      (lineBreak_lt_iff (by omega)).2 (by rwa [List.drop_one])
    have hin := hwithin _ (formed_of_lt _ hbreak h4 (Nat.le_refl _))
    exact ⟨hbreak, by omega⟩
  · rintro ⟨hbreak, hfour⟩
    exact ⟨fun around => ⟨ep.length, _, makeEndpointHumanReadable_fst around hbreak hfour
      (Nat.le_refl _)⟩, fun around _ => within_makeEndpointHumanReadable around hbreak hfour⟩

/-- **Which endpoints stay inside.**  For every string: `make_endpoint_human_readable` returns and
forms and reads only iterators of the string, up to its end, if and only if the string has fewer
than four bytes, or there is a line break behind its first byte and not more than one in the three
bytes behind the first. -/
theorem staysInside_iff (ep : Endpoint) :
    StaysInside ep ↔ ep.length < 4 ∨ 10 ∈ ep.tail ∧ (ep.tail.take 3).count 10 ≤ 1 := by
  rcases Nat.lt_or_ge ep.length 4 with h4 | h4
  · exact iff_of_true (staysInside_of_short h4) (.inl h4)
  · rw [staysInside_iff_of_le h4, or_iff_right (by omega)]

/-- The endpoint of a node without SSL, as `init` makes it and as `NaiveMsgMgr` takes it out of a
message, has no line break: the second search starts behind its end, whatever lies there. -/
theorem not_staysInside :
    let ep := turnAddrPortIntoRawEndpoint (ascii "10.0.0.1:7777")
    (naiveMsgMgr ep).OpensOwn ∧
      (∀ around fuel, ep.length ≤ fuel →
        (ep.length + 1 : ℤ) ∈ (makeEndpointHumanReadable ep around fuel).2.formed) ∧
      ¬StaysInside ep := by
  intro ep
  have h4 : 4 ≤ ep.length := by decide
  have hnot : 10 ∉ ep.tail := by decide
  exact ⟨opensOwn_naiveMsgMgr (by decide) (by decide),
    fun around _ hfuel => formed_of_notMem around h4 hfuel hnot,
    fun h => hnot ((staysInside_iff_of_le h4).1 h).1⟩

/-! ### The endpoints of the nodes -/

theorem tail_serialize3Strs (s₁ s₂ s₃ : Bytes) : (SignedData.serialize3Strs s₁ s₂ s₃).tail =
    if s₂ = [] ∧ s₃ = [] then s₁ else s₁ ++ .ofNat s₂.length :: s₂ ++ s₃ := by
  rw [SignedData.serialize3Strs]
  split_ifs
  · rfl
  · rfl

/-- **Endpoints with a key.**  A key with a line break, but not in its first three bytes, keeps the
endpoint inside; so it is with every key in PEM form. -/
theorem staysInside_serialize3Strs {pkPem : Bytes} (hbreak : 10 ∈ pkPem) (h3 : 10 ∉ pkPem.take 3)
    (addrPort cert : Bytes) : StaysInside (SignedData.serialize3Strs pkPem addrPort cert) := by
  have hlong : 3 < pkPem.length := by
    by_contra hshort
    rw [List.take_of_length_le (by omega)] at h3
    exact h3 hbreak
  obtain ⟨rest, htail⟩ : ∃ rest,
      (SignedData.serialize3Strs pkPem addrPort cert).tail = pkPem ++ rest := by
    rw [tail_serialize3Strs]
    split_ifs
    · exact ⟨[], (List.append_nil _).symm⟩
    · exact ⟨_, List.append_assoc _ _ _⟩
  have hlen := congrArg List.length htail
  rw [List.length_tail, List.length_append] at hlen
  refine (staysInside_iff_of_le (by omega)).2 ?_
  rw [htail, List.take_append_of_le_length (by omega), List.count_eq_zero_of_not_mem h3]
  exact ⟨List.mem_append_left _ hbreak, Nat.zero_le 1⟩

/-- **Endpoints without a key** stay inside only if the address has a line break, or if its length
is written as one. -/
theorem staysInside_turnAddrPortIntoRawEndpoint_iff (addrPort : Bytes) :
    StaysInside (turnAddrPortIntoRawEndpoint addrPort) ↔
      addrPort.length % 256 = 10 ∨ 10 ∈ addrPort := by
  have hpk : 10 ∉ ascii "<mock-pk>" := by decide
  have hpk3 : 10 ∉ (ascii "<mock-pk>").take 3 := by decide
  rcases eq_or_ne addrPort [] with rfl | hne
  · have h4 : 4 ≤ (turnAddrPortIntoRawEndpoint []).length := by decide
    exact iff_of_false (fun h => hpk ((staysInside_iff_of_le h4).1 h).1) (by decide)
  · have htail : (turnAddrPortIntoRawEndpoint addrPort).tail =
        ascii "<mock-pk>" ++ .ofNat addrPort.length :: addrPort := by
      rw [turnAddrPortIntoRawEndpoint, tail_serialize3Strs, if_neg fun h => hne h.1,
        List.append_nil]
    have hlen := congrArg List.length htail
    rw [List.length_tail, List.length_append] at hlen
    have hpkLen : (ascii "<mock-pk>").length = 9 := by decide
    have hbyte : (10 : UInt8) = .ofNat addrPort.length ↔ addrPort.length % 256 = 10 := by
      rw [← UInt8.toNat_inj, UInt8.toNat_ofNat']
      exact eq_comm
    rw [staysInside_iff_of_le (by omega), htail, List.take_append_of_le_length (by omega),
      List.count_eq_zero_of_not_mem hpk3, List.mem_append, List.mem_cons, or_iff_right hpk, hbyte]
    exact and_iff_left (Nat.zero_le 1)

end ICnsssPrimaryBased

namespace SslMsgMgr

/-- A node that signs, and whose key is in PEM form, has an endpoint that stays inside. -/
theorem staysInside_myEndpoint {K : Type*} {O : OpenSsl K} {M : SslMsgMgr K}
    (hbreak : 10 ∈ O.publicPem M.mySecretKey) (h3 : 10 ∉ (O.publicPem M.mySecretKey).take 3) :
    ICnsssPrimaryBased.StaysInside (M.myEndpoint O) :=
  ICnsssPrimaryBased.staysInside_serialize3Strs hbreak h3 _ _

end SslMsgMgr

end WeakChain
