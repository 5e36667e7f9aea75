import WeakChain.Net.SignedData
import WeakChain.Rpc.AddTxs

/-!
# The verifier of transactions

`TxVerifier` checks the signature of a transaction with its public key, and in the CA mode also the
certificate of the key.  What is signed is the nonce, as a decimal number, followed by the data.

With an ideal signature scheme (`OpenSsl.Ideal`), a signature fixes that string, and so the nonce
and the data as far as the string tells where the one ends and the other begins
(`TxVerifier.signed_of_verify`).  The receiver and the type are not signed.
-/

namespace WeakChain

/-- `Tx::getToSignPayload`. -/
def Tx.getToSignPayload (t : Tx) : Bytes := decimal t.nonce.toNat ++ t.data

/-- The payload tells the nonce and the data apart if the size of the nonce is known. -/
theorem Tx.eq_of_getToSignPayload_eq {t u : Tx} (h : t.getToSignPayload = u.getToSignPayload)
    (hlen : (decimal t.nonce.toNat).length = (decimal u.nonce.toNat).length) :
    t.nonce = u.nonce ∧ t.data = u.data := by
  obtain ⟨hnonce, hdata⟩ := List.append_inj h hlen
  exact ⟨UInt64.toNat_inj.1 (decimal_injective hnonce), hdata⟩

/-- A signature verifies for one payload only. -/
def OpenSsl.Ideal {K : Type*} (O : OpenSsl K) : Prop :=
  ∀ pkPem sig data data', O.doVerify pkPem data sig = true → O.doVerify pkPem data' sig = true →
    data = data'

/-- A key that has signed once has one payload. -/
theorem OpenSsl.ideal_ofSigned {signed : List (Bytes × Bytes)}
    (h : (signed.map Prod.fst).Nodup) : (OpenSsl.ofSigned signed).Ideal := by
  intro pkPem sig data data' hdata hdata'
  obtain ⟨p, hp, hdec⟩ := List.any_eq_true.1 hdata
  obtain ⟨q, hq, hdec'⟩ := List.any_eq_true.1 hdata'
  obtain ⟨hkey, rfl, -⟩ := of_decide_eq_true hdec
  obtain ⟨hkey', rfl, -⟩ := of_decide_eq_true hdec'
  have hpq : p.1 = q.1 := List.append_cancel_left (hkey.symm.trans hkey')
  rw [List.inj_on_of_nodup_map h hp hq hpq]

/-- `TxVerifier`. -/
structure TxVerifier where
  /-- The public key of the CA; nothing in the public mode. -/
  caPublicKey : Option Bytes

namespace TxVerifier

variable [Keccak] {K : Type*} (O : OpenSsl K) (v : TxVerifier)

/-- `verify`. -/
def verify (t : Tx) : Bool :=
  if v.caPublicKey.any fun ca => !O.doVerify ca t.pkPem t.pkCrt then false
  else if t.fromAddr ≠ Tx.getFromFromPkPem t.pkPem then false
  else if !O.doVerify t.pkPem t.getToSignPayload t.signature then false
  else true

variable {O v}

theorem verify_eq_true_iff {t : Tx} : v.verify O t = true ↔
    (∀ ca ∈ v.caPublicKey, O.doVerify ca t.pkPem t.pkCrt = true) ∧
      t.fromAddr = Tx.getFromFromPkPem t.pkPem ∧
      O.doVerify t.pkPem t.getToSignPayload t.signature = true := by
  rw [verify]
  cases v.caPublicKey with
  | none => simp
  | some ca => simp

/-- The receiver and the type are not looked at. -/
theorem verify_congr {t u : Tx} (hpkPem : t.pkPem = u.pkPem) (hpkCrt : t.pkCrt = u.pkCrt)
    (hfrom : t.fromAddr = u.fromAddr) (hsig : t.signature = u.signature)
    (hpayload : t.getToSignPayload = u.getToSignPayload) : v.verify O t = v.verify O u := by
  rw [verify, verify, hpkPem, hpkCrt, hfrom, hsig, hpayload]

/-- **A signature fixes what is signed.**  Two transactions with the same key and the same signature
that are accepted have the same payload, and the same nonce and data if their nonces have equally
many digits; the receiver and the type are free. -/
theorem signed_of_verify (hideal : O.Ideal) {t u : Tx} (ht : v.verify O t = true)
    (hu : v.verify O u = true) (hpk : t.pkPem = u.pkPem) (hsig : t.signature = u.signature) :
    t.getToSignPayload = u.getToSignPayload ∧
      ((decimal t.nonce.toNat).length = (decimal u.nonce.toNat).length →
        t.nonce = u.nonce ∧ t.data = u.data) ∧
      ∀ toAddr type, v.verify O { t with toAddr := toAddr, type := type } = true := by
  obtain ⟨-, -, htsig⟩ := verify_eq_true_iff.1 ht
  obtain ⟨-, -, husig⟩ := verify_eq_true_iff.1 hu
  rw [← hpk, ← hsig] at husig
  have hpayload : t.getToSignPayload = u.getToSignPayload := hideal _ _ _ _ htsig husig
  refine ⟨hpayload, Tx.eq_of_getToSignPayload_eq hpayload, fun toAddr type => ?_⟩
  rw [← ht]
  exact verify_congr rfl rfl rfl rfl rfl

/-- A key that has signed `123`, and a CA that has certified the key. -/
def signedOnce : OpenSsl Bytes :=
  .ofSigned [(ascii "alice", ascii "123"), (ascii "CA", ascii "public key of alice")]

/-- The verifier in the CA mode. -/
def caMode : TxVerifier := ⟨some (ascii "public key of CA")⟩

/-- A transaction with the signature of the key. -/
def signedTx (toAddr : Address) (type : TxType) (nonce : UInt64) (data : Bytes) : Tx where
  pkPem := ascii "public key of alice"
  signature := ascii "signature of alice"
  pkCrt := ascii "signature of CA"
  type := type
  fromAddr := Tx.getFromFromPkPem (ascii "public key of alice")
  toAddr := toAddr
  data := data
  nonce := nonce
  timestamp := 0

theorem verify_signedTx {toAddr : Address} {type : TxType} {nonce : UInt64} {data : Bytes}
    (h : decimal nonce.toNat ++ data = ascii "123") :
    caMode.verify signedOnce (signedTx toAddr type nonce data) = true := by
  refine verify_eq_true_iff.2 ⟨?_, rfl, ?_⟩
  · rintro ca ⟨⟩
    change signedOnce.doVerify (ascii "public key of CA") (ascii "public key of alice")
      (ascii "signature of CA") = true
    decide
  · change signedOnce.doVerify (ascii "public key of alice") (decimal nonce.toNat ++ data)
      (ascii "signature of alice") = true
    rw [h]
    decide

omit [Keccak] in
theorem ideal_signedOnce : signedOnce.Ideal := OpenSsl.ideal_ofSigned (by decide)

omit [Keccak] in
/-- Two transactions with the nonce 1 and the data `23`. -/
theorem signed_of_verify_twice :
    let _ : Keccak := Sponge.keccak
    let t := signedTx (makeAddress 1) .evm 1 (ascii "23")
    let u := signedTx (makeAddress 2) .python 1 (ascii "23")
    t.getToSignPayload = u.getToSignPayload ∧
      ((decimal t.nonce.toNat).length = (decimal u.nonce.toNat).length →
        t.nonce = u.nonce ∧ t.data = u.data) ∧
      ∀ toAddr type,
        caMode.verify signedOnce { t with toAddr := toAddr, type := type } = true := by
  intro _ t u
  have ht : caMode.verify signedOnce t = true := verify_signedTx (by decide)
  have hu : caMode.verify signedOnce u = true := verify_signedTx (by decide)
  exact signed_of_verify ideal_signedOnce ht hu rfl rfl

omit [Keccak] in
/-- The same signature with another receiver and another type, and with a digit of the data moved to
the nonce. -/
theorem verify_of_other_fields :
    let _ : Keccak := Sponge.keccak
    let t := signedTx (makeAddress 1) .evm 1 (ascii "23")
    let u := signedTx (makeAddress 2) .python 1 (ascii "23")
    let u' := signedTx (makeAddress 1) .evm 12 (ascii "3")
    signedOnce.Ideal ∧ caMode.verify signedOnce t = true ∧
      (caMode.verify signedOnce u = true ∧ t.pkPem = u.pkPem ∧ t.signature = u.signature ∧
        t.toAddr ≠ u.toAddr ∧ t.type ≠ u.type) ∧
      caMode.verify signedOnce u' = true ∧ t.pkPem = u'.pkPem ∧ t.signature = u'.signature ∧
        t.nonce ≠ u'.nonce ∧ t.data ≠ u'.data := by
  intro _ t u u'
  exact ⟨ideal_signedOnce, verify_signedTx (by decide),
    ⟨verify_signedTx (by decide), rfl, rfl, by decide, by decide⟩,
    verify_signedTx (by decide), rfl, rfl, by decide, by decide⟩

end TxVerifier

end WeakChain
