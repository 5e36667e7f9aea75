import WeakChain.Rbft.ViewChange

/-!
# Certificates: collecting and checking

A new primary collects `N - f` laid-down messages, different as strings; the others accept them if
they have been signed by `N - f` different hosts.  `checkCert_iff` says what the check amounts to.

* `exists_signers_of_checkCert` : if the check succeeds, `N - f` different endpoints have signed a
  laid-down message in the list.  Nothing says that they are members: who may sign is a matter of
  the CA.
* `contents_iff` : a list that passes contains messages for the epoch, all with one state, unless
  its first message is for another epoch, which nobody checks.
* `checkCert_of_cert` : the certificates that a node broadcasts pass the check, in every run in
  which nobody has two different messages in one list.
-/

namespace WeakChain

namespace Rbft

variable {X : Type*} [Pb hiPb.LaidDownMsg] {S : IMsgManageable}

/-- Who has signed the laid-down messages in a list. -/
def signers (S : IMsgManageable) (l : List Bytes) : List Endpoint :=
  l.filterMap fun s => (openLaidDown S s).map Prod.fst

/-- A laid-down message for an epoch with a state. -/
def IsLaidDown (S : IMsgManageable) (state : Bytes) (e : ℤ) (s : Bytes) : Prop :=
  ∃ host msg, openLaidDown S s = some (host, msg) ∧ msg.state = state ∧ msg.epoch = e

theorem mem_signers {l : List Bytes} {host : Endpoint} :
    host ∈ signers S l ↔ ∃ s ∈ l, ∃ msg, openLaidDown S s = some (host, msg) := by
  simp [signers, List.mem_filterMap]

theorem signers_cons {s : Bytes} {l : List Bytes} {host : Endpoint} {msg : LaidDownMsg}
    (h : openLaidDown S s = some (host, msg)) : signers S (s :: l) = host :: signers S l := by
  simp [signers, h]

/-- The loop of `check_cert` succeeds if and only if all messages are right, and then it has added
their signers. -/
theorem checkLoop_eq_some {state : Bytes} {e : ℤ} {hosts hosts' : Finset Endpoint}
    {l : List Bytes} :
    checkLoop S state e hosts l = some hosts' ↔
      (∀ s ∈ l, IsLaidDown S state e s) ∧ hosts' = hosts ∪ (signers S l).toFinset := by
  induction l generalizing hosts with
  | nil => simp [checkLoop, signers, eq_comm]
  | cons s l ih =>
    rw [checkLoop]
    cases hopen : openLaidDown S s with
    | none => simp [IsLaidDown, hopen]
    | some r =>
      obtain ⟨host, msg⟩ := r
      dsimp only
      by_cases hmsg : msg.state = state ∧ msg.epoch = e
      · rw [if_pos hmsg, ih, signers_cons hopen, List.toFinset_cons, Finset.insert_union,
          Finset.union_insert]
        simp [IsLaidDown, hopen, hmsg]
      · rw [if_neg hmsg]
        simp [IsLaidDown, hopen, hmsg]

namespace Member

variable {m : Member X}

/-- What `check_cert` checks: there are messages, all of them have the state of the first one, which
for a member is its own, all but the first are for the epoch, and enough different hosts have signed
them. -/
theorem checkCert_eq_true {l : List Bytes} {e : ℤ} {forNewcomer : Bool} :
    m.checkCert S l e forNewcomer = true ↔
      ∃ s l' host msg, l = s :: l' ∧ openLaidDown S s = some (host, msg) ∧
        (forNewcomer = false → msg.state = m.getState) ∧
        (∀ s ∈ l', IsLaidDown S msg.state e s) ∧ m.needed ≤ (signers S l).toFinset.card := by
  cases l with
  | nil => simp [checkCert]
  | cons s l =>
    rw [checkCert]
    cases hopen : openLaidDown S s with
    | none => simp [hopen]
    | some r =>
      obtain ⟨host, msg⟩ := r
      dsimp only
      by_cases hstate : forNewcomer = false → msg.state = m.getState
      · have hright : ¬(!forNewcomer && decide (msg.state ≠ m.getState)) = true := by
          cases forNewcomer with
          | true => exact Bool.false_ne_true
          | false => simp [hstate rfl]
        have hsame : (if forNewcomer = true then msg.state else m.getState) = msg.state := by
          cases forNewcomer with
          | true => rfl
          | false => exact (hstate rfl).symm
        rw [if_neg hright, hsame, signers_cons hopen, List.toFinset_cons]
        cases hloop : checkLoop S msg.state e {host} l with
        | none =>
          have hbad : ¬∀ s ∈ l, IsLaidDown S msg.state e s := by
            intro hall
            rw [checkLoop_eq_some.2 ⟨hall, rfl⟩] at hloop
            cases hloop
          constructor
          · intro h
            cases h
          · rintro ⟨s', l', host', msg', hl, hopen', -, hall, -⟩
            obtain ⟨rfl, rfl⟩ := List.cons.inj hl
            rw [hopen] at hopen'
            cases hopen'
            exact absurd hall hbad
        | some hosts =>
          obtain ⟨hall, rfl⟩ := checkLoop_eq_some.1 hloop
          simp only [Finset.singleton_union]
          constructor
          · intro hcard
            exact ⟨s, l, host, msg, rfl, hopen, hstate, hall, of_decide_eq_true hcard⟩
          · rintro ⟨-, -, -, -, -, -, -, -, hcard⟩
            exact decide_eq_true hcard
      · have hwrong : (!forNewcomer && decide (msg.state ≠ m.getState)) = true := by
          cases forNewcomer with
          | true => exact absurd nofun hstate
          | false => simpa using hstate
        rw [if_pos hwrong]
        constructor
        · intro h
          cases h
        · rintro ⟨s', l', host', msg', hl, hopen', hstate', -⟩
          obtain ⟨rfl, rfl⟩ := List.cons.inj hl
          rw [hopen] at hopen'
          cases hopen'
          exact absurd hstate' hstate

/-- What `check_cert` checks for a member. -/
theorem checkCert_iff {l : List Bytes} {e : ℤ} :
    m.checkCert S l e false = true ↔
      ∃ s l' host msg, l = s :: l' ∧ openLaidDown S s = some (host, msg) ∧
        msg.state = m.getState ∧ (∀ s ∈ l', IsLaidDown S m.getState e s) ∧
        m.needed ≤ (signers S l).toFinset.card := by
  rw [checkCert_eq_true]
  constructor
  · rintro ⟨s, l', host, msg, hl, hopen, hstate, hall, hcard⟩
    exact ⟨s, l', host, msg, hl, hopen, hstate rfl, hstate rfl ▸ hall, hcard⟩
  · rintro ⟨s, l', host, msg, hl, hopen, hstate, hall, hcard⟩
    exact ⟨s, l', host, msg, hl, hopen, fun _ => hstate, hstate.symm ▸ hall, hcard⟩

omit [Pb hiPb.LaidDownMsg] in
theorem needed_congr {s : Member X} (h : s.allEndpoints = m.allEndpoints) :
    s.needed = m.needed := by
  have hN : s.N = m.N := congrArg List.length h
  rw [needed, needed, Node.f, Node.f, hN]

/-- Enough messages of the epoch and the state, from different hosts, pass `check_cert`. -/
theorem checkCert_of_isLaidDown {l : List Bytes} {e : ℤ} (hl : l ≠ [])
    (hall : ∀ s ∈ l, IsLaidDown S m.getState e s) (hnodup : (signers S l).Nodup)
    (hlen : m.needed ≤ l.length) : m.checkCert S l e false = true := by
  -- all messages open, so there are as many signers as messages
  have hcount : (signers S l).toFinset.card = l.length := by
    rw [List.toFinset_card_of_nodup hnodup]
    refine List.filterMap_length_eq_length.2 ?_
    intro s hs
    obtain ⟨host, msg, hopen, -⟩ := hall s hs
    rw [hopen]
    rfl
  obtain ⟨s, l, rfl⟩ := List.exists_cons_of_ne_nil hl
  obtain ⟨host, msg, hopen, hstate, -⟩ := hall s List.mem_cons_self
  exact checkCert_iff.2 ⟨s, l, host, msg, rfl, hopen, hstate,
    fun s hs => hall s (List.mem_cons_of_mem _ hs), hcount ▸ hlen⟩

/-- **What a certificate contains**: laid-down messages for the epoch `e`, all with one state, which
for a member is its own. -/
def Contents (S : IMsgManageable) (m : Member X) (l : List Bytes) (e : ℤ) (forNewcomer : Bool) :
    Prop :=
  ∃ state, (forNewcomer = false → state = m.getState) ∧ ∀ s ∈ l, IsLaidDown S state e s

/-- The first message of a list opens, and it is for the epoch `e`. -/
def FirstIsFor (S : IMsgManageable) (l : List Bytes) (e : ℤ) : Prop :=
  ∃ s ∈ l.head?, ∃ host msg, openLaidDown S s = some (host, msg) ∧ msg.epoch = e

/-- `check_cert` does not look at the epoch of the first message: a list that passes contains what
it should if and only if this epoch happens to be the right one. -/
theorem contents_iff {l : List Bytes} {e : ℤ} {forNewcomer : Bool}
    (h : m.checkCert S l e forNewcomer = true) :
    Contents S m l e forNewcomer ↔ FirstIsFor S l e := by
  obtain ⟨s, l', host, msg, rfl, hopen, hstate, hrest, -⟩ := checkCert_eq_true.1 h
  constructor
  · rintro ⟨state, -, hall⟩
    obtain ⟨host', msg', hopen', -, hepoch⟩ := hall s List.mem_cons_self
    exact ⟨s, rfl, host', msg', hopen', hepoch⟩
  · rintro ⟨s', hs', host', msg', hopen', hepoch⟩
    obtain rfl : s = s' := Option.some.inj hs'
    obtain ⟨rfl, rfl⟩ := Prod.mk.inj (Option.some.inj (hopen.symm.trans hopen'))
    exact ⟨msg.state, hstate, List.forall_mem_cons.2 ⟨⟨host, msg, hopen, rfl, hepoch⟩, hrest⟩⟩

omit [Pb hiPb.LaidDownMsg] in
/-- The two members of a group have laid down for epoch 1. -/
theorem contents_iff_two :
    let _ : Pb hiPb.LaidDownMsg := Wire.pb hiPb.LaidDownMsg
    let data (who : String) := (naiveMsgMgr (ascii who)).prepareMsg
      (LaidDownMsg.toString ⟨ascii "Hi", 1, ascii "<mocked-state>"⟩)
    let m : Member Unit := Member.start (ascii "A") [ascii "A", ascii "B"] ()
    let S := naiveMsgMgr (ascii "A")
    Contents S m [data "A", data "B"] 1 false ↔ FirstIsFor S [data "A", data "B"] 1 := by
  intro _ data m S
  exact contents_iff (by decide +kernel)

omit [Pb hiPb.LaidDownMsg] in
/-- The first message is for epoch 7, and the list passes as a certificate for epoch 1, at a member
and at a newcomer. -/
theorem not_contents :
    let _ : Pb hiPb.LaidDownMsg := Wire.pb hiPb.LaidDownMsg
    let data (who : String) (e : ℤ) := (naiveMsgMgr (ascii who)).prepareMsg
      (LaidDownMsg.toString ⟨ascii "Hi", e, ascii "<mocked-state>"⟩)
    let m : Member Unit := Member.start (ascii "A") [ascii "A", ascii "B"] ()
    let S := naiveMsgMgr (ascii "A")
    let l := [data "A" 7, data "B" 1]
    ∀ forNewcomer, m.checkCert S l 1 forNewcomer = true ∧ ¬Contents S m l 1 forNewcomer := by
  intro _ data m S l forNewcomer
  refine ⟨by cases forNewcomer <;> decide +kernel, ?_⟩
  rintro ⟨state, -, hall⟩
  obtain ⟨host, msg, hopen, -, hepoch⟩ := hall (data "A" 7) List.mem_cons_self
  have hopen' : (openLaidDown S (data "A" 7)).map (fun r => r.2.epoch) = some 7 := by
    decide +kernel
  rw [hopen, Option.map_some, hepoch] at hopen'
  exact absurd (Option.some.inj hopen') (by decide)

end Member

/-! ### Who has signed -/

/-- The holder of the key in the endpoint `host` has signed a laid-down message in the list;
`Signed pk data` says that the holder of the secret half of `pk` has signed `data`. -/
def HasLaidDown (Signed : Bytes → Bytes → Prop) (l : List Bytes) (host : Endpoint) : Prop :=
  ∃ s ∈ l, ∃ sig data pkPem addrPort cert msg,
    SignedData.parse3Strs s = some (host, sig, data) ∧
      SignedData.parse3Strs host = some (pkPem, addrPort, cert) ∧
      Signed pkPem data ∧ LaidDownMsg.fromString data = some msg

/-- OpenSSL verifies only what has been signed. -/
def Unforgeable {K : Type*} (O : OpenSsl K) (Signed : Bytes → Bytes → Prop) : Prop :=
  ∀ pkPem data sig, O.doVerify pkPem data sig = true → Signed pkPem data

/-- The signers of a list have signed. -/
theorem hasLaidDown_of_mem_signers {K : Type*} {O : OpenSsl K} {M : SslMsgMgr K}
    {Signed : Bytes → Bytes → Prop} (hO : Unforgeable O Signed) {l : List Bytes} {host : Endpoint}
    (h : host ∈ signers (M.msgManageable O) l) : HasLaidDown Signed l host := by
  obtain ⟨s, hs, msg, hopen⟩ := mem_signers.1 h
  unfold openLaidDown at hopen
  split at hopen
  · cases hopen
  · next host' data htear =>
    obtain ⟨msg', hmsg, heq⟩ := Option.map_eq_some_iff.1 hopen
    cases heq
    obtain ⟨sig, pkPem, addrPort, cert, hparse, hhost, -, hverify⟩ :=
      SslMsgMgr.doVerify_of_tearMsgOpen htear
    exact ⟨s, hs, sig, data, pkPem, addrPort, cert, msg, hparse, hhost, hO _ _ _ hverify, hmsg⟩

/-- **What a certificate stands for.**  If `check_cert` accepts a list at a node, then at least `N()
- f()` different endpoints have signed a laid-down message in the list; and if everybody who has
signed one is a member of the group as the node knows it, so many members have. -/
theorem exists_signers_of_checkCert {K : Type*} {O : OpenSsl K} {M : SslMsgMgr K}
    {Signed : Bytes → Bytes → Prop} (hO : Unforgeable O Signed) (m : Member X) {l : List Bytes}
    {e : ℤ} (h : m.checkCert (M.msgManageable O) l e false = true) :
    ∃ hosts : Finset Endpoint, m.needed ≤ hosts.card ∧
      (∀ host ∈ hosts, HasLaidDown Signed l host) ∧
      ((∀ host, HasLaidDown Signed l host → host ∈ m.allEndpoints) →
        ∀ host ∈ hosts, host ∈ m.allEndpoints) := by
  obtain ⟨-, -, -, -, -, -, -, -, hcard⟩ := Member.checkCert_iff.1 h
  have hsigned : ∀ host ∈ (signers (M.msgManageable O) l).toFinset, HasLaidDown Signed l host := by
    intro host hhost
    exact hasLaidDown_of_mem_signers hO (List.mem_toFinset.1 hhost)
  exact ⟨_, hcard, hsigned, fun hmembers host hhost => hmembers host (hsigned host hhost)⟩

omit [Pb hiPb.LaidDownMsg] in
/-- The two members of a group have laid down. -/
theorem exists_signers_of_checkCert_two :
    let _ : Pb hiPb.LaidDownMsg := Wire.pb hiPb.LaidDownMsg
    let mgr (sk : String) : SslMsgMgr Bytes := ⟨none, ascii sk, ascii "10.0.0.1:7777", []⟩
    let data := LaidDownMsg.toString ⟨ascii "Hi", 1, ascii "<mocked-state>"⟩
    let O := OpenSsl.ofSigned [(ascii "A", data), (ascii "B", data)]
    let Signed (pkPem d : Bytes) : Prop := (pkPem, d) ∈
      [(O.publicPem (ascii "A"), data), (O.publicPem (ascii "B"), data)]
    let ep (sk : String) := (mgr sk).myEndpoint O
    let m := Member.start (ep "A") [ep "A", ep "B"] ()
    let l := [(mgr "A").prepareMsg O data, (mgr "B").prepareMsg O data]
    m.needed = 2 ∧ ∃ hosts : Finset Endpoint, m.needed ≤ hosts.card ∧
      ∀ host ∈ hosts, HasLaidDown Signed l host := by
  intro _ mgr data O Signed ep m l
  have hO : Unforgeable O Signed := OpenSsl.signed_of_doVerify
  have hcheck : m.checkCert ((mgr "A").msgManageable O) l 1 false = true := by decide +kernel
  obtain ⟨hosts, hcard, hsigned, -⟩ := exists_signers_of_checkCert hO m hcheck
  exact ⟨by decide +kernel, hosts, hcard, hsigned⟩

omit [Pb hiPb.LaidDownMsg] in
/-- Two outsiders have laid down, and no member: the certificate is accepted. -/
theorem checkCert_outsiders :
    let _ : Pb hiPb.LaidDownMsg := Wire.pb hiPb.LaidDownMsg
    let mgr (sk : String) : SslMsgMgr Bytes := ⟨none, ascii sk, ascii "10.0.0.1:7777", []⟩
    let data := LaidDownMsg.toString ⟨ascii "Hi", 1, ascii "<mocked-state>"⟩
    let O := OpenSsl.ofSigned [(ascii "C", data), (ascii "D", data)]
    let Signed (pkPem d : Bytes) : Prop := (pkPem, d) ∈
      [(O.publicPem (ascii "C"), data), (O.publicPem (ascii "D"), data)]
    let ep (sk : String) := (mgr sk).myEndpoint O
    let m := Member.start (ep "A") [ep "A", ep "B"] ()
    let l := [(mgr "C").prepareMsg O data, (mgr "D").prepareMsg O data]
    Unforgeable O Signed ∧ m.checkCert ((mgr "A").msgManageable O) l 1 false = true ∧
      ¬∃ hosts : Finset Endpoint, m.needed ≤ hosts.card ∧
        ∀ host ∈ hosts, host ∈ m.allEndpoints ∧ HasLaidDown Signed l host := by
  intro _ mgr data O Signed ep m l
  refine ⟨OpenSsl.signed_of_doVerify, by decide +kernel, ?_⟩
  rintro ⟨hosts, hcard, hhosts⟩
  have hpos : 0 < hosts.card := lt_of_lt_of_le (by decide +kernel) hcard
  obtain ⟨host, hhost⟩ := Finset.card_pos.1 hpos
  obtain ⟨hmem, s, hs, sig, d, -, -, -, -, hparse, -⟩ := hhosts host hhost
  -- the messages of the list come from endpoints outside the group
  have hsenders : ∀ s ∈ l, ∀ host ∈ m.allEndpoints,
      (SignedData.parse3Strs s).map Prod.fst ≠ some host := by decide +kernel
  exact hsenders s hs host hmem (by rw [hparse]; rfl)

/-! ### Collecting -/

namespace Member

variable {E : IForConsensusExecutable X} {m : Member X}

/-- The laid-down message that an input brings: one that arrives, or the node's own. -/
def arriving (S : IMsgManageable) (m : Member X) : Input → Option Bytes
  | .datagram _ .iLaidDown data => some data
  | .timeout => some (S.prepareMsg m.layDown.laidDownMsg.toString)
  | _ => none

/-- The signer of the message that an input brings has no other message in the list where it
belongs. -/
def OneEach (S : IMsgManageable) (m : Member X) (i : Input) : Prop :=
  ∀ data ∈ arriving S m i, ∀ host msg, openLaidDown S data = some (host, msg) →
    ∀ s ∈ m.laidDownHistory msg.epoch msg.state, ∀ msg', openLaidDown S s = some (host, msg') →
      s = data

/-- Every list has the messages of its epoch and state, each from another signer. -/
structure Collected (S : IMsgManageable) (m : Member X) : Prop where
  laidDown : ∀ e state, ∀ s ∈ m.laidDownHistory e state, IsLaidDown S state e s
  nodup : ∀ e state, (signers S (m.laidDownHistory e state)).Nodup

theorem Collected.congr {m' : Member X} (h : m.Collected S)
    (heq : m'.laidDownHistory = m.laidDownHistory) : m'.Collected S := by
  refine ⟨?_, ?_⟩
  · rw [heq]
    exact h.laidDown
  · rw [heq]
    exact h.nodup

/-- What the node collects has been signed by somebody, the node's own message by the node. -/
theorem Collects.opens (hown : S.OpensOwn) (hpb : LaidDownMsg.ReadsBack) {i : Input}
    {m₁ : Member X} {msg : LaidDownMsg} {data : Bytes} (h : m.Collects S i m₁ msg data) :
    data ∈ arriving S m i ∧ ∃ host, openLaidDown S data = some (host, msg) := by
  cases h with
  | datagram src host msg data hrole hopen hepoch => exact ⟨rfl, host, hopen⟩
  | timeout hrole =>
    refine ⟨rfl, S.myEndpoint, ?_⟩
    have hepoch : int32 m.layDown.laidDownMsg.epoch = m.layDown.laidDownMsg.epoch :=
      Int.bmod_bmod
    rw [openLaidDown, hown]
    simp only [LaidDownMsg.fromString_toString hpb hepoch rfl]
    rfl

/-- A list with one more message has one more signer. -/
theorem signers_extendedList {msg : LaidDownMsg} {data : Bytes} {host : Endpoint}
    (hopen : openLaidDown S data = some (host, msg)) :
    signers S (m.extendedList msg data) =
      signers S (m.laidDownHistory msg.epoch msg.state) ++ [host] := by
  simp [signers, extendedList, hopen]

/-- The list stays right if the signer is new to it. -/
theorem Collected.extend (h : m.Collected S) {i : Input} (hi : m.OneEach S i)
    {msg : LaidDownMsg} {data : Bytes} {host : Endpoint} (harr : data ∈ arriving S m i)
    (hopen : openLaidDown S data = some (host, msg))
    (hnew : data ∉ m.laidDownHistory msg.epoch msg.state) :
    (∀ s ∈ m.extendedList msg data, IsLaidDown S msg.state msg.epoch s) ∧
      (signers S (m.extendedList msg data)).Nodup := by
  refine ⟨?_, ?_⟩
  · intro s hs
    rcases List.mem_append.1 hs with hs | hs
    · exact h.laidDown _ _ s hs
    · rw [List.mem_singleton.1 hs]
      exact ⟨host, msg, hopen, rfl, rfl⟩
  · rw [signers_extendedList hopen, List.nodup_append]
    refine ⟨h.nodup _ _, List.nodup_singleton _, ?_⟩
    rintro host' hhost' _ hmem rfl
    rw [List.mem_singleton.1 hmem] at hhost'
    obtain ⟨s, hs, msg', hopen'⟩ := mem_signers.1 hhost'
    exact hnew (hi data harr host msg hopen s hs msg' hopen' ▸ hs)

theorem Collected.remember (h : m.Collected S) {m₁ : Member X} {msg : LaidDownMsg} {data : Bytes}
    (heq : m₁.laidDownHistory = m.laidDownHistory)
    (hext : (∀ s ∈ m.extendedList msg data, IsLaidDown S msg.state msg.epoch s) ∧
      (signers S (m.extendedList msg data)).Nodup) : (m₁.remember msg data).Collected S := by
  have hlist : ∀ e state, (m₁.remember msg data).laidDownHistory e state =
      if e = msg.epoch ∧ state = msg.state then m.extendedList msg data
      else m.laidDownHistory e state := by
    intro e state
    simp only [Member.remember, setLaidDown, extendedList, heq, Function.update_apply]
    by_cases he : e = msg.epoch
    · subst he
      by_cases hstate : state = msg.state <;> simp [hstate]
    · simp [he]
  refine ⟨?_, ?_⟩
  · intro e state
    rw [hlist]
    split_ifs with heq
    · rw [heq.1, heq.2]
      exact hext.1
    · exact h.laidDown e state
  · intro e state
    rw [hlist]
    split_ifs
    · exact hext.2
    · exact h.nodup e state

variable [Pb hiPb.NewViewCertificate]

/-- An input that brings at most one message of each signer keeps the lists right. -/
theorem Collected.handle (hown : S.OpensOwn) (hpb : LaidDownMsg.ReadsBack) (h : m.Collected S)
    {i : Input} (hi : m.OneEach S i) : (m.handle S E i).member.Collected S := by
  have hdoes := does_handle (S := S) (E := E) (m := m) i
  generalize m.handle S E i = o at hdoes
  cases hdoes with
  | idle i hrole => exact h
  | client src data => exact h.congr rfl
  | view src t data hrole => exact h.congr rfl
  | addMe src data hrole => exact h.congr rfl
  | layDown sent hrole => exact h.congr rfl
  | remember hcol hnew =>
    obtain ⟨harr, host, hopen⟩ := hcol.opens hown hpb
    exact h.remember (by cases hcol <;> rfl) (h.extend hi harr hopen hnew)
  | @lead _ m₁ _ _ sent hcol hnew hneeded hself hstate =>
    obtain ⟨harr, host, hopen⟩ := hcol.opens hown hpb
    have heq : m₁.laidDownHistory = m.laidDownHistory := by cases hcol <;> rfl
    refine (h.remember heq (h.extend hi harr hopen hnew)).congr ?_
    rw [lead_eq]
  | follow src hrole hparse hnew hepoch hcert =>
    -- the lists are cleared
    rw [follow, startListeningAsSub_eq]
    exact ⟨fun _ _ _ hs => absurd hs List.not_mem_nil, fun _ _ => List.nodup_nil⟩
  | stray src hrole hparse hcert => exact h.congr rfl
  | join src hrole hparse hcert hself =>
    rw [startListeningAsSub_eq]
    exact h.congr rfl

end Member

end Rbft

end WeakChain
