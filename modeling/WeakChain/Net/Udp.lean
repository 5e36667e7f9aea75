import WeakChain.Net.SignedData

/-!
# Messages over UDP

`IPBasedUdpNetAsstn` sends a datagram `<target>:<msg>`, where `msg` is what the message manager has
prepared from the data, and `WeakUdpServer` passes `msg` to the handler of the target.  The target
stands in front of the signed message and is no part of it, so the same message is opened under
every target (`Udp.unpack_cons`).

Resolving the address and the sockets are left to the network: a datagram may come from anywhere.
-/

namespace WeakChain

/-- The value of a sign and a string of digits, if the digits are in the range of a `uint16_t`. -/
def uint16Value (neg : Bool) (s : Bytes) : Option UInt16 :=
  if s = [] then none
  else (digitsValue 0 s).bind fun n =>
    if n < 65536 then some (if neg then 0 - .ofNat n else .ofNat n) else none

/-- `lexical_cast<uint16_t>` of a string: an optional sign and digits. -/
def lexicalCastUInt16 (s : Bytes) : Option UInt16 :=
  match s with
  | 45 :: s => uint16Value true s
  | 43 :: s => uint16Value false s
  | s => uint16Value false s

namespace Udp

/-- `split_first`, at a colon. -/
def splitFirst : Bytes → Option (Bytes × Bytes)
  | [] => none
  | c :: s => if c = 58 then some ([], s) else (splitFirst s).map fun r => (c :: r.1, r.2)

/-- `split_addr_port`.  It throws if there are not two parts, or if the second is not a port. -/
def splitAddrPort (s : Bytes) : Option (Bytes × UInt16) :=
  match splitFirst s with
  | none => none
  | some (addr, port) => if 58 ∈ port then none else (lexicalCastUInt16 port).map fun p => (addr, p)

/-- `extract_addr_and_port_from_endpoint`. -/
def extractAddrAndPortFromEndpoint (endpoint : Endpoint) : Option Bytes :=
  (SignedData.parse3Strs endpoint).map fun r => r.2.1

/-- `IPBasedUdpNetAsstn::send`: where the datagram goes, and its payload.  Nothing is signed or sent
if the endpoint has no address. -/
def send (S : IMsgManageable) (endpoint : Endpoint) (target data : Bytes) :
    Option ((Bytes × UInt16) × Bytes) :=
  match (extractAddrAndPortFromEndpoint endpoint).bind splitAddrPort with
  | none => none
  | some addr => some (addr, target ++ 58 :: S.prepareMsg data)

/-- `handle_req`, with the handlers that `make_handler` makes: the target, and what its handler is
called with. -/
def unpack (S : IMsgManageable) (payload : Bytes) : Option (Bytes × Endpoint × Bytes) :=
  match splitFirst payload with
  | none => none
  | some (target, msg) => (S.tearMsgOpen msg).map fun r => (target, r)

theorem splitFirst_cons {target : Bytes} (h : 58 ∉ target) (msg : Bytes) :
    splitFirst (target ++ 58 :: msg) = some (target, msg) := by
  induction target with
  | nil => rfl
  | cons c target ih =>
    have hc : c ≠ 58 := fun hc => h (hc ▸ List.mem_cons_self)
    rw [List.cons_append, splitFirst, if_neg hc,
      ih fun hmem => h (List.mem_cons_of_mem _ hmem)]
    rfl

/-- **A message is opened under every target.** -/
theorem unpack_cons (S : IMsgManageable) {target : Bytes} (h : 58 ∉ target) (msg : Bytes) :
    unpack S (target ++ 58 :: msg) = (S.tearMsgOpen msg).map fun r => (target, r) := by
  rw [unpack, splitFirst_cons h]

/-- **Round trip.**  What is sent reaches the handler of its target, with the sender and
the data. -/
theorem unpack_of_send {S S' : IMsgManageable} (hopen : ∀ data, S'.tearMsgOpen (S.prepareMsg data) =
      some (S.myEndpoint, data)) {endpoint : Endpoint} {target data : Bytes} (htarget : 58 ∉ target)
    {addr : Bytes × UInt16} {payload : Bytes}
    (h : send S endpoint target data = some (addr, payload)) :
    unpack S' payload = some (target, S.myEndpoint, data) := by
  unfold send at h
  split at h
  · cases h
  · obtain ⟨-, rfl⟩ := Prod.mk.inj (Option.some.inj h)
    rw [unpack_cons S' htarget, hopen]
    rfl

/-- What a handler is called with has been torn open. -/
theorem tearMsgOpen_of_unpack {S : IMsgManageable} {payload target data : Bytes} {src : Endpoint}
    (h : unpack S payload = some (target, src, data)) :
    ∃ msg, splitFirst payload = some (target, msg) ∧ S.tearMsgOpen msg = some (src, data) := by
  unfold unpack at h
  split at h
  · cases h
  · next target' msg hsplit =>
    obtain ⟨⟨src', data'⟩, hopen, heq⟩ := Option.map_eq_some_iff.1 h
    cases heq
    exact ⟨msg, hsplit, hopen⟩

end Udp

end WeakChain
