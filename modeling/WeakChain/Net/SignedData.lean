import WeakChain.Cnsss.Basic

/-!
# Signed messages

`SignedData` packs a sender, a signature and the data into one string.  A message manager
(`IMsgManageable`) prepares such strings and tears them open: `NaiveMsgMgr` does not sign, and
`SslMsgMgr` signs with a key whose public half is a part of the sender's endpoint.  OpenSSL is not
part of the repository, so signing and verifying are parameters (`OpenSsl`).

A message that `SslMsgMgr` tears open carries a signature that the key in the endpoint of its sender
verifies (`SslMsgMgr.doVerify_of_tearMsgOpen`).
-/

namespace WeakChain

namespace SignedData

/-- `parse_3_strs`.  The sizes are `uint8_t`s, so that of the first string is zero after 255.  Where
the source would read behind the end of the string, the result is nothing. -/
def parse3Strs (s : Bytes) : Option (Bytes × Bytes × Bytes) :=
  match s with
  | [] => none
  | [_] => none
  | l₁ :: rest =>
    let n₁ := (l₁ + 1).toNat
    if rest.length < n₁ then none
    else
      match rest.drop n₁ with
      | [] => some (rest.take n₁, [], [])
      | l₂ :: rest' =>
        if rest'.length < l₂.toNat then none
        else some (rest.take n₁, rest'.take l₂.toNat, rest'.drop l₂.toNat)

/-- `serialize_3_strs`. -/
def serialize3Strs (s₁ s₂ s₃ : Bytes) : Bytes :=
  if s₂ = [] ∧ s₃ = [] then (.ofNat s₁.length - 1) :: s₁
  else (.ofNat s₁.length - 1) :: s₁ ++ .ofNat s₂.length :: s₂ ++ s₃

/-- **Round trip**, for a first string that is not empty, and sizes that fit. -/
theorem parse3Strs_serialize3Strs {s₁ s₂ : Bytes} (s₃ : Bytes) (h₁ : s₁ ≠ [])
    (h₁' : s₁.length < 256) (h₂ : s₂.length < 256) :
    parse3Strs (serialize3Strs s₁ s₂ s₃) = some (s₁, s₂, s₃) := by
  obtain ⟨a, s₁, rfl⟩ := List.exists_cons_of_ne_nil h₁
  have hsize₁ : (s₁.length + 1) % 256 = s₁.length + 1 := Nat.mod_eq_of_lt h₁'
  have hsize₂ : s₂.length % 256 = s₂.length := Nat.mod_eq_of_lt h₂
  by_cases h : s₂ = [] ∧ s₃ = []
  · obtain ⟨rfl, rfl⟩ := h
    simp [serialize3Strs, parse3Strs, hsize₁]
  · simp [serialize3Strs, h, parse3Strs, hsize₁, hsize₂]

/-- The first string is as long as its size says. -/
theorem fst_of_parse3Strs {l₁ : UInt8} {rest : Bytes} {r : Bytes × Bytes × Bytes}
    (h : parse3Strs (l₁ :: rest) = some r) : r.1 = rest.take (l₁ + 1).toNat := by
  cases rest with
  | nil => cases h
  | cons b rest =>
    rw [parse3Strs] at h
    · split_ifs at h
      split at h
      · rw [← Option.some.inj h]
      · split_ifs at h
        rw [← Option.some.inj h]
    · simp

/-- **The round trip, and where it ends.**  For every first string of 1 to 256 bytes, the sizes that
one byte can hold if it holds the size minus one, every second one of at most 255 bytes and every
third one: the strings are read back if and only if the first one has at most 255 bytes.  The size
256 is written as 255, and one more than that is zero in a `uint8_t`. -/
theorem readsBack_iff (s₁ s₂ s₃ : Bytes) (h₁ : 1 ≤ s₁.length) (h₁' : s₁.length ≤ 256)
    (h₂ : s₂.length ≤ 255) :
    parse3Strs (serialize3Strs s₁ s₂ s₃) = some (s₁, s₂, s₃) ↔ s₁.length ≤ 255 := by
  have hne : s₁ ≠ [] := List.ne_nil_of_length_pos h₁
  constructor
  · intro hread
    by_contra hlong
    have hlen : s₁.length = 256 := by omega
    obtain ⟨rest, hser⟩ : ∃ rest, serialize3Strs s₁ s₂ s₃ = 255 :: rest := by
      rw [serialize3Strs, hlen]
      split_ifs
      · exact ⟨_, rfl⟩
      · exact ⟨_, rfl⟩
    rw [hser] at hread
    exact hne (fst_of_parse3Strs hread)
  · intro hshort
    exact parse3Strs_serialize3Strs s₃ hne (by omega) (by omega)

/-- An endpoint with a short signature and a command. -/
theorem readsBack_iff_short :
    let s₁ := ascii "10.0.0.1:7777"
    let s₂ : Bytes := [0x30, 0x44, 0x02]
    let s₃ := ascii "/pleaseExecuteThis"
    parse3Strs (serialize3Strs s₁ s₂ s₃) = some (s₁, s₂, s₃) ↔ s₁.length ≤ 255 :=
  readsBack_iff _ _ _ (by decide) (by decide) (by decide)

/-- A sender of 256 times the letter `a` is read as an empty one, with a signature. -/
theorem not_readsBack :
    let s₁ : Bytes := List.replicate 256 97
    (1 ≤ s₁.length ∧ s₁.length ≤ 256) ∧
      parse3Strs (serialize3Strs s₁ [] []) =
        some ([], List.replicate 97 97, List.replicate 158 97) ∧
      parse3Strs (serialize3Strs s₁ [] []) ≠ some (s₁, [], []) := by
  intro s₁
  have hread : parse3Strs (serialize3Strs s₁ [] []) =
      some ([], List.replicate 97 97, List.replicate 158 97) := by
    decide +kernel
  have hlen : s₁.length = 256 := List.length_replicate
  refine ⟨⟨by omega, by omega⟩, hread, fun h => ?_⟩
  have hfirst := congrArg (Option.map Prod.fst) (hread.symm.trans h)
  exact absurd (Option.some.inj hfirst).symm (List.cons_ne_nil _ _)

end SignedData

/-- `IMsgManageable`. -/
structure IMsgManageable where
  /-- `prepare_msg`. -/
  prepareMsg : Bytes → Bytes
  /-- `tear_msg_open`: the sender and the data, if the signature is right. -/
  tearMsgOpen : Bytes → Option (Endpoint × Bytes)
  /-- `my_endpoint`. -/
  myEndpoint : Endpoint

/-- What the node has prepared is opened, and comes from the node. -/
def IMsgManageable.OpensOwn (S : IMsgManageable) : Prop :=
  ∀ data, S.tearMsgOpen (S.prepareMsg data) = some (S.myEndpoint, data)

/-- `NaiveMsgMgr`: it does not sign at all. -/
def naiveMsgMgr (ep : Endpoint) : IMsgManageable where
  prepareMsg data := SignedData.serialize3Strs ep [] data
  tearMsgOpen msg := (SignedData.parse3Strs msg).map fun d => (d.1, d.2.2)
  myEndpoint := ep

theorem opensOwn_naiveMsgMgr {ep : Endpoint} (h : ep ≠ []) (h' : ep.length < 256) :
    (naiveMsgMgr ep).OpensOwn := by
  intro data
  have hparse : SignedData.parse3Strs (SignedData.serialize3Strs ep [] data) =
      some (ep, [], data) :=
    SignedData.parse3Strs_serialize3Strs data h h' (by simp)
  simp only [naiveMsgMgr, hparse]
  rfl

/-- OpenSSL, with secret keys `K`. -/
structure OpenSsl (K : Type*) where
  /-- `do_sign`. -/
  doSign : K → Bytes → Bytes
  /-- `do_verify`, with a public key in PEM form. -/
  doVerify : Bytes → Bytes → Bytes → Bool
  /-- `dump_key_to_pem` of the public half of a secret key. -/
  publicPem : K → Bytes

/-- OpenSSL as far as some messages go: these have been signed, with the keys they come with, and
nothing else is verified. -/
def OpenSsl.ofSigned (signed : List (Bytes × Bytes)) : OpenSsl Bytes :=
  let publicPem (sk : Bytes) := ascii "public key of " ++ sk
  let doSign (sk : Bytes) := ascii "signature of " ++ sk
  { doSign := fun sk _ => doSign sk
    doVerify := fun pkPem data sig =>
      signed.any fun p => pkPem = publicPem p.1 ∧ data = p.2 ∧ sig = doSign p.1
    publicPem := publicPem }

theorem OpenSsl.signed_of_doVerify {signed : List (Bytes × Bytes)} (pkPem data sig : Bytes)
    (h : (OpenSsl.ofSigned signed).doVerify pkPem data sig = true) :
    (pkPem, data) ∈ signed.map fun p => ((OpenSsl.ofSigned signed).publicPem p.1, p.2) := by
  obtain ⟨p, hp, hdec⟩ := List.any_eq_true.1 h
  obtain ⟨rfl, rfl, -⟩ := of_decide_eq_true hdec
  exact List.mem_map.2 ⟨p, hp, rfl⟩

/-- `SslMsgMgr`. -/
structure SslMsgMgr (K : Type*) where
  /-- The public key of the CA, if there is one; without one all keys are trusted. -/
  caPublicKey : Option Bytes
  /-- The secret key of this node. -/
  mySecretKey : K
  /-- The address and the port of this node. -/
  myAddrPort : Bytes
  /-- The certificate of the key, issued by the CA. -/
  myCert : Bytes

namespace SslMsgMgr

variable {K : Type*} (O : OpenSsl K) (M : SslMsgMgr K)

/-- `test_trusted_peer`. -/
def testTrustedPeer (pkPem cert : Bytes) : Bool :=
  match M.caPublicKey with
  | none => true
  | some ca => O.doVerify ca pkPem cert

/-- `my_endpoint`. -/
def myEndpoint : Endpoint :=
  SignedData.serialize3Strs (O.publicPem M.mySecretKey) M.myAddrPort M.myCert

/-- `prepare_msg`. -/
def prepareMsg (data : Bytes) : Bytes :=
  SignedData.serialize3Strs (M.myEndpoint O) (O.doSign M.mySecretKey data) data

/-- `tear_msg_open`. -/
def tearMsgOpen (msg : Bytes) : Option (Endpoint × Bytes) :=
  match SignedData.parse3Strs msg with
  | none => none
  | some (sender, sig, data) =>
    match SignedData.parse3Strs sender with
    | none => none
    | some (pkPem, _, cert) =>
      if !M.testTrustedPeer O pkPem cert then none
      else if !O.doVerify pkPem data sig then none
      else some (sender, data)

/-- `SslMsgMgr`, as a message manager. -/
def msgManageable : IMsgManageable := ⟨M.prepareMsg O, M.tearMsgOpen O, M.myEndpoint O⟩

variable {O M}

/-- A message that is torn open has been verified with the key in its sender's endpoint, and the CA
has certified the key. -/
theorem doVerify_of_tearMsgOpen {msg data : Bytes} {sender : Endpoint}
    (h : M.tearMsgOpen O msg = some (sender, data)) :
    ∃ sig pkPem addrPort cert,
      SignedData.parse3Strs msg = some (sender, sig, data) ∧
        SignedData.parse3Strs sender = some (pkPem, addrPort, cert) ∧
        M.testTrustedPeer O pkPem cert = true ∧ O.doVerify pkPem data sig = true := by
  unfold tearMsgOpen at h
  split at h
  · cases h
  · next sender' sig data' hmsg =>
    split at h
    · cases h
    · next pkPem addrPort cert hsender =>
      split_ifs at h with htrust hsig
      obtain ⟨rfl, rfl⟩ := Prod.mk.inj (Option.some.inj h)
      exact ⟨sig, pkPem, addrPort, cert, hmsg, hsender, by simpa using htrust, by simpa using hsig⟩

end SslMsgMgr

end WeakChain
