import WeakChain.Evm.Cache
import WeakChain.Exec.Deploy

/-!
# The journal of a host

When a transaction has been executed, `getStateChanges` writes down what is left on the host: an
insertion for each account in memory that is not dead, in the order in which a hash map is visited,
and a deletion for each dead one.  `applyJournalStateDB` makes these changes one after the other.

`Overlay.overlaid_getStateChanges` : the state database afterwards is the one before with the host
laid over it, whatever the order.  So it is what has been seen through the host
(`Overlaid.rel_seen`), and what the transaction has written with `set_storage` is read back.
-/

namespace WeakChain

namespace Overlay

open Evm StateDB

/-- The accounts afterwards are those before with a host laid over them: the dead ones are gone, the
others in memory are written, and the rest is left alone. -/
structure Overlaid (h : WeakEvmHost) (before after : IAcnGettable) : Prop where
  dead : ∀ a ∈ h.deadAcn, after a = none
  inMemory : ∀ a acn, a ∉ h.deadAcn → h.accounts.find? a = some acn →
    ∃ acn', after a = some acn' ∧ acn'.Same acn
  elsewhere : ∀ a, a ∉ h.deadAcn → h.accounts.find? a = none → after a = before a

/-- The accounts afterwards are those that are seen through the host. -/
theorem Overlaid.rel_seen {h : WeakEvmHost} {before after : IAcnGettable}
    (ho : Overlaid h before after) (a : Address) :
    Option.Rel Acn.Same (after a) (h.seen before a) := by
  rw [WeakEvmHost.seen]
  split_ifs with hdead
  · rw [ho.dead a hdead]
    exact .none
  · rw [WeakEvmHost.acn?]
    cases hfind : h.accounts.find? a with
    | some acn =>
      obtain ⟨acn', hafter, hsame⟩ := ho.inMemory a acn hdead hfind
      rw [hafter]
      exact .some hsame
    | none =>
      rw [ho.elsewhere a hdead hfind]
      cases before a with
      | none => exact .none
      | some acn => exact .some (.refl acn)

section

variable [HashOrder Address] [HashOrder Bytes32] [Pb hiPb.Acn]

/-- A dead account is deleted, and nothing else is done to it. -/
theorem getAcn_getStateChanges_of_dead {h : WeakEvmHost} {a : Address} (db : StateDB)
    (ha : a ∈ h.deadAcn) : getAcn (applyJournal db (getStateChanges h)) a = none := by
  have hdel : ∀ c ∈ getStateChanges h, c.k = addressToString a → c.del = true := by
    intro c hc hk
    rcases List.mem_append.1 hc with hc | hc
    · obtain ⟨e, he, rfl⟩ := List.mem_map.1 hc
      obtain rfl := addressToString_injective hk
      have hlive := (List.mem_filter.1 he).2
      simp [ha] at hlive
    · obtain ⟨b, -, rfl⟩ := List.mem_map.1 hc
      rfl
  have hmem : ∃ c ∈ getStateChanges h, c.k = addressToString a :=
    ⟨_, List.mem_append_right _ (List.mem_map_of_mem ha), rfl⟩
  rw [getAcn, lookup_applyJournal_of_del hdel hmem]
  rfl

theorem overlaid_applyJournal (hpb : Pb.ReadsBack hiPb.Acn) (h : WeakEvmHost) (db : StateDB) :
    Overlaid h (getAcn db) (getAcn (applyJournal db (getStateChanges h))) where
  dead _ ha := getAcn_getStateChanges_of_dead db ha
  inMemory _ _ ha hfind := Deploy.getAcn_getStateChanges_of_some db hpb ha hfind
  elsewhere _ ha hfind := Deploy.getAcn_getStateChanges_of_none db ha hfind

/-- **The journal is the overlay.**  For every host, with any accounts in memory and any dead ones,
and every order in which its accounts are visited: applying `getStateChanges` to a state database
gives the database with the host laid over it, in memory and on the disk. -/
theorem overlaid_getStateChanges (hpb : Pb.ReadsBack hiPb.Acn) (h : WeakEvmHost) :
    (∀ w : InRamWorldStorage,
      Overlaid h (InRamWorldStorage.storage.getAcn w)
        (InRamWorldStorage.storage.getAcn (w.applyJournalStateDB (getStateChanges h)).1)) ∧
    ∀ (D : Type) (R : RocksDb D) (contents : D → StringMap), R.Lawful contents →
      ∀ w : WorldStorage D, ∃ w', w.applyJournalStateDB R (getStateChanges h) = some (w', true) ∧
        Overlaid h (w.getAcn R) (w'.getAcn R) := by
  refine ⟨fun w => overlaid_applyJournal hpb h w.stateDB, ?_⟩
  intro D R contents hR w
  obtain ⟨w', happly, hdb⟩ := w.exists_applyJournalStateDB hR (getStateChanges h)
  refine ⟨w', happly, ?_⟩
  rw [w.getAcn_eq hR, w'.getAcn_eq hR, hdb]
  exact overlaid_applyJournal hpb h (contents w.stateDB)

end

/-! ### A host with one live and one dead account -/

/-- A database in memory. -/
def mapDb : RocksDb StringMap where
  get m k :=
    match m.lookup k with
    | some v => (.ok, v)
    | none => (.notFound, [])
  write m ops := (ops.foldl RocksDb.applyOp m, .ok)

theorem lawful_mapDb : mapDb.Lawful id where
  get_some m k v h := by
    rw [id_eq] at h
    simp [mapDb, h]
  get_none m k h := by
    rw [id_eq] at h
    simp [mapDb, h]
  write_ok _ _ := rfl
  write _ _ := rfl

/-- A host with accounts at `1` and `2`, the second of which is dead. -/
def twoHost : WeakEvmHost :=
  ((WeakEvmHost.init.setAcn (makeAddress 1) { nonce := 123 }).setAcn (makeAddress 2)
    { nonce := 234 }).selfdestruct (makeAddress 2)

/-- Both accounts are in the database before; afterwards the second one is gone. -/
theorem overlaid_getStateChanges_two :
    let _ : HashOrder Address := .insertion Address
    let _ : HashOrder Bytes32 := .insertion Bytes32
    let _ : Pb hiPb.Acn := Wire.pb hiPb.Acn
    let db := applyJournal ∅ [⟨false, addressToString (makeAddress 1), Acn.toString {}⟩,
      ⟨false, addressToString (makeAddress 2), Acn.toString {}⟩]
    Overlaid twoHost (InRamWorldStorage.storage.getAcn ⟨db, ∅⟩)
        (InRamWorldStorage.storage.getAcn
          ((⟨db, ∅⟩ : InRamWorldStorage).applyJournalStateDB (getStateChanges twoHost)).1) ∧
      ∃ w' : WorldStorage StringMap,
        (⟨db, ∅⟩ : WorldStorage StringMap).applyJournalStateDB mapDb (getStateChanges twoHost) =
          some (w', true) ∧
        Overlaid twoHost ((⟨db, ∅⟩ : WorldStorage StringMap).getAcn mapDb) (w'.getAcn mapDb) := by
  intro _ _ _ db
  have hpb : Pb.ReadsBack hiPb.Acn := Wire.readsBack hiPb.Acn
  have hboth := overlaid_getStateChanges hpb twoHost
  exact ⟨hboth.1 ⟨db, ∅⟩, hboth.2 StringMap mapDb id lawful_mapDb ⟨db, ∅⟩⟩

end Overlay

end WeakChain
