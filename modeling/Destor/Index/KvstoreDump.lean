/- digest: The dump of the key-value store, and exactly when the next run loads what was dumped. -/

import Destor.Index.KvstoreHtable
import Destor.Library.Bytes
import Destor.Library.Stream
import Destor.Library.Transition

set_option autoImplicit false
set_option relaxedAutoImplicit false

namespace Destor

open Library Library.Bytes Library.Outcome Library.Transition

inductive LoadAbort where
  /-- `malloc(kvpair_size)` has less room than a pair needs. -/
  | noRoom
  /-- A read at the end of the file leaves its variable uninitialised. -/
  | shortRead
  /-- `init_kvstore_htable`: more ids than `index_value_length`. -/
  | tooManyIds
deriving DecidableEq, Repr

def kvpairSize (cfg : Config) : Int := toInt32 (cfg.indexKeySize + cfg.indexValueLength * 8)

/-- The allocation of a pair has room for the key and the values. A size that wrapped is negative, which
no allocation meets, or too small. -/
def KvpairFits (cfg : Config) : Prop :=
  (cfg.indexKeySize + cfg.indexValueLength * 8 : Int) ≤ kvpairSize cfg

instance (cfg : Config) : Decidable (KvpairFits cfg) := by
  unfold KvpairFits
  infer_instance

/-- One pair as `close_kvstore_htable` writes it. -/
def encodeKvpair (cfg : Config) (key : Key) (value : List Int) : List UInt8 :=
  key ++ leInt 4 cfg.indexValueLength ++ value.flatMap (leInt 8)

/-- What `close_kvstore_htable` writes, over the pairs in the order of the hash table. -/
def closeKvstoreHtable (cfg : Config) (entries : List ((_ : Key) × List Int)) : List UInt8 :=
  leInt 4 entries.length ++ entries.flatMap fun e => encodeKvpair cfg e.1 e.2

/-- `fread` of one object of `n` bytes. -/
def readExactly (s : Stream) (n : Nat) : Except LoadAbort (List UInt8 × Stream) := do
  let r := s.fread n
  require (r.1.length = n) .shortRead
  return r

def readIds : Nat → Stream → Except LoadAbort (List Int × Stream)
  | 0, s => .ok ([], s)
  | n + 1, s => do
      let id ← readExactly s 8
      let ids ← readIds n id.2
      return (ofLeInt id.1 :: ids.1, ids.2)

/-- The loop body of `init_kvstore_htable`. The slots for which no id is read keep what `new_kvpair`
puts there. -/
def readKvpair (cfg : Config) (s : Stream) : Except LoadAbort ((Key × List Int) × Stream) := do
  require (KvpairFits cfg) .noRoom
  let key ← readExactly s cfg.indexKeySize
  let idNum ← readExactly key.2 4
  require (ofLeInt idNum.1 ≤ cfg.indexValueLength) .tooManyIds
  let ids ← readIds (ofLeInt idNum.1).toNat idNum.2
  return ((key.1, ids.1 ++ List.replicate (cfg.indexValueLength - ids.1.length) temporaryId), ids.2)

/-- The loop of `init_kvstore_htable`. -/
def readKvpairs (cfg : Config) : Nat → Stream → KvStore → Except LoadAbort KvStore
  | 0, _, htable => .ok htable
  | n + 1, s, htable => do
      let kv ← readKvpair cfg s
      readKvpairs cfg n kv.2 (htable.insert kv.1.1 kv.1.2)

def initKvstoreHtable (cfg : Config) : Option (List UInt8) → Except LoadAbort KvStore
  | none => .ok ∅
  | some dump => do
      let keyNum ← readExactly (Stream.openRead dump) 4
      readKvpairs cfg (ofLeInt keyNum.1).toNat keyNum.2 ∅

inductive KvCall where
  | update (key : Key) (id : Int)
  | delete (key : Key) (id : Int)
deriving DecidableEq

def kvCall (cfg : Config) (kv : KvStore) : KvCall → Except Abort KvStore
  | .update key id => .ok (kvstoreUpdate cfg kv key id)
  | .delete key id => kvstoreDelete kv key id

/-- Keys have `index_key_size` bytes; an id is an `int64_t` other than `TEMPORARY_ID`. -/
def KvCall.Admitted (cfg : Config) : KvCall → Prop
  | .update key id => key.length = cfg.indexKeySize ∧ id ≠ temporaryId ∧ -2 ^ 63 ≤ id ∧ id < 2 ^ 63
  | .delete key _ => key.length = cfg.indexKeySize

def KvRun (cfg : Config) (calls : List KvCall) (kv : KvStore) : Prop :=
  Run (kvCall cfg) (fun _ call => call.Admitted cfg) ∅ calls kv

section Reading

variable {cfg : Config} {s : Stream} {bs tail : List UInt8}

theorem readExactly_of_rest {n : Nat} (h : s.rest = bs ++ tail) (hn : bs.length = n) :
    ∃ s', readExactly s n = .ok (bs, s') ∧ s'.rest = tail := by
  subst hn
  obtain ⟨hbs, htail⟩ := Stream.fread_of_rest h
  refine ⟨(s.fread bs.length).2, bind_ok_iff.mpr ⟨(), require_of (by rw [hbs]), ?_⟩, htail⟩
  exact congrArg Except.ok (Prod.ext hbs rfl)

theorem ofLeInt_leInt_eight {id : Int} (h : -2 ^ 63 ≤ id ∧ id < 2 ^ 63) :
    ofLeInt (leInt 8 id) = id :=
  ofLeInt_leInt (by decide) (by omega) (by omega)

theorem readIds_of_rest {ids : List Int} (hids : ∀ id ∈ ids, -2 ^ 63 ≤ id ∧ id < 2 ^ 63)
    (h : s.rest = ids.flatMap (leInt 8) ++ tail) :
    ∃ s', readIds ids.length s = .ok (ids, s') ∧ s'.rest = tail := by
  induction ids generalizing s with
  | nil => exact ⟨s, rfl, h⟩
  | cons id ids ih =>
      obtain ⟨hid, hrest⟩ := List.forall_mem_cons.mp hids
      rw [List.flatMap_cons, List.append_assoc] at h
      obtain ⟨s₁, hread, hs₁⟩ := readExactly_of_rest h (length_leInt 8 id)
      obtain ⟨s₂, hreads, hs₂⟩ := ih hrest hs₁
      refine ⟨s₂, bind_ok_iff.mpr ⟨_, hread, bind_ok_iff.mpr ⟨_, hreads, ?_⟩⟩, hs₂⟩
      rw [ofLeInt_leInt_eight hid]
      rfl

end Reading

section Calls

variable {cfg : Config} {kv kv' : KvStore} {key : Key} {id : Int} {calls : List KvCall}

theorem kvstoreDelete_cases (hok : kvstoreDelete kv key id = .ok kv') :
    (kv.lookup key = none ∧ kv' = kv) ∨
      ∃ value value', kv.lookup key = some value ∧ deleteId value id = .ok value' ∧
        ((value'.head? = some temporaryId ∧ kv' = kv.erase key) ∨
          (value'.head? ≠ some temporaryId ∧ kv' = kv.insert key value')) := by
  rw [kvstoreDelete] at hok
  cases hvalue : kv.lookup key with
  | none =>
      rw [hvalue] at hok
      cases hok
      exact Or.inl ⟨rfl, rfl⟩
  | some value =>
      rw [hvalue] at hok
      obtain ⟨value', hdelete, hok⟩ := bind_ok_iff.mp hok
      cases hok
      refine Or.inr ⟨value, value', rfl, hdelete, ?_⟩
      split
      · exact Or.inl ⟨by assumption, rfl⟩
      · exact Or.inr ⟨by assumption, rfl⟩

/-- A deletion empties one slot at most; if that is the first one, no id is left. -/
theorem deleteId_cases {value value' : List Int} (hok : deleteId value id = .ok value') :
    (id ∉ value ∧ value' = value) ∨
      ∃ i, value.idxOf? id = some i ∧ value' = value.set i temporaryId := by
  rw [deleteId] at hok
  cases hidx : value.idxOf? id with
  | none =>
      rw [hidx] at hok
      cases hok
      exact Or.inl ⟨List.idxOf?_eq_none_iff.mp hidx, rfl⟩
  | some i =>
      rw [hidx] at hok
      obtain ⟨_, -, hok⟩ := bind_ok_iff.mp hok
      cases hok
      exact Or.inr ⟨i, rfl, rfl⟩

/-- Every pair has the sizes that its allocation is for, and ids of 64 bits. -/
def Sized (cfg : Config) (kv : KvStore) : Prop :=
  ∀ key value, kv.lookup key = some value → key.length = cfg.indexKeySize ∧
    value.length = cfg.indexValueLength ∧ ∀ id ∈ value, -2 ^ 63 ≤ id ∧ id < 2 ^ 63

private theorem temporaryId_range : -2 ^ 63 ≤ temporaryId ∧ temporaryId < 2 ^ 63 := by decide

theorem Sized.update (h : Sized cfg kv) (hkey : key.length = cfg.indexKeySize)
    (hid : -2 ^ 63 ≤ id ∧ id < 2 ^ 63) : Sized cfg (kvstoreUpdate cfg kv key id) := by
  intro k value hk
  rw [lookup_kvstoreUpdate] at hk
  split at hk
  · rename_i heq
    subst heq
    cases hk
    have hold : ((kv.lookup k).getD (newKvpairFull cfg)).length = cfg.indexValueLength ∧
        ∀ i ∈ (kv.lookup k).getD (newKvpairFull cfg), -2 ^ 63 ≤ i ∧ i < 2 ^ 63 := by
      cases hlookup : kv.lookup k with
      | none =>
          refine ⟨List.length_replicate, fun i hi => ?_⟩
          rw [List.eq_of_mem_replicate hi]
          exact temporaryId_range
      | some old => exact (h k old hlookup).2
    refine ⟨hkey, ?_, ?_⟩
    · have hpos := cfg.indexValueLength_pos
      rw [kvUpdate, List.length_cons, List.length_dropLast, hold.1]
      omega
    · refine List.forall_mem_cons.mpr ⟨hid, fun i hi => ?_⟩
      exact hold.2 i (List.dropLast_subset _ hi)
  · exact h k value hk

theorem Sized.delete (h : Sized cfg kv) (hok : kvstoreDelete kv key id = .ok kv') :
    Sized cfg kv' := by
  obtain ⟨-, rfl⟩ | ⟨old, new, hold, hdelete, hcase⟩ := kvstoreDelete_cases hok
  · exact h
  · obtain ⟨hkey, hlen, hids⟩ := h key old hold
    have hnew : new.length = old.length ∧ ∀ i ∈ new, -2 ^ 63 ≤ i ∧ i < 2 ^ 63 := by
      obtain ⟨-, rfl⟩ | ⟨i, -, rfl⟩ := deleteId_cases hdelete
      · exact ⟨rfl, hids⟩
      · refine ⟨List.length_set, fun j hj => ?_⟩
        obtain hj | rfl := List.mem_or_eq_of_mem_set hj
        · exact hids j hj
        · exact temporaryId_range
    intro k value hk
    obtain ⟨-, rfl⟩ | ⟨-, rfl⟩ := hcase
    · by_cases heq : k = key
      · rw [heq, AList.lookup_erase] at hk
        exact absurd hk (Option.some_ne_none value).symm
      · rw [AList.lookup_erase_ne heq] at hk
        exact h k value hk
    · by_cases heq : k = key
      · rw [heq, AList.lookup_insert] at hk
        cases hk
        exact ⟨heq ▸ hkey, hnew.1.trans hlen, hnew.2⟩
      · rw [AList.lookup_insert_ne heq] at hk
        exact h k value hk

theorem KvRun.sized (hrun : KvRun cfg calls kv) : Sized cfg kv := by
  induction hrun with
  | nil =>
      intro key value h
      rw [AList.lookup_empty] at h
      exact absurd h (Option.some_ne_none value).symm
  | @snoc calls kv kv' call run hok hstep ih =>
      cases call with
      | update key id =>
          cases hstep
          exact ih.update hok.1 hok.2.2
      | delete key id => exact ih.delete hstep

/-- The first id of a pair is that of the last update of its key, and it was not deleted since. -/
def LatestFirst (calls : List KvCall) (kv : KvStore) : Prop :=
  ∀ key value, kv.lookup key = some value → ∃ id before after,
    calls = before ++ KvCall.update key id :: after ∧ value.head? = some id ∧ id ≠ temporaryId ∧
      (∀ id', KvCall.update key id' ∉ after) ∧ KvCall.delete key id ∉ after

private def LatestOf (calls : List KvCall) (key : Key) (value : List Int) : Prop :=
  ∃ id before after, calls = before ++ KvCall.update key id :: after ∧ value.head? = some id ∧
    id ≠ temporaryId ∧ (∀ id', KvCall.update key id' ∉ after) ∧ KvCall.delete key id ∉ after

private theorem LatestOf.snoc {value value' : List Int} {call : KvCall}
    (h : LatestOf calls key value) (hhead : value'.head? = value.head?)
    (hupdate : ∀ id', call ≠ .update key id')
    (hdelete : ∀ id, value.head? = some id → call ≠ .delete key id) :
    LatestOf (calls ++ [call]) key value' := by
  obtain ⟨id, before, after, rfl, hid, hne, hno, hkept⟩ := h
  refine ⟨id, before, after ++ [call], ?_, hhead.trans hid, hne, fun id' hmem => ?_, fun hmem => ?_⟩
  · rw [List.append_assoc, List.cons_append]
  · obtain hmem | hmem := List.mem_append.mp hmem
    · exact hno id' hmem
    · exact hupdate id' (List.mem_singleton.mp hmem).symm
  · obtain hmem | hmem := List.mem_append.mp hmem
    · exact hkept hmem
    · exact hdelete id hid (List.mem_singleton.mp hmem).symm

private theorem head_of_delete {old new : List Int} {first : Int} (hold : old.head? = some first)
    (hdelete : deleteId old id = .ok new) (hnew : new.head? ≠ some temporaryId) :
    new.head? = old.head? ∧ id ≠ first := by
  obtain ⟨x, rest, rfl⟩ : ∃ x rest, old = x :: rest := by
    cases old with
    | nil => cases hold
    | cons x rest => exact ⟨x, rest, rfl⟩
  cases hold
  obtain ⟨hmem, rfl⟩ | ⟨i, hidx, rfl⟩ := deleteId_cases hdelete
  · exact ⟨rfl, fun h => hmem (h ▸ List.mem_cons_self)⟩
  · cases i with
    | zero => exact absurd rfl hnew
    | succ i =>
        refine ⟨rfl, fun h => ?_⟩
        subst h
        rw [List.idxOf?_cons, beq_self_eq_true] at hidx
        cases hidx

theorem KvRun.latestFirst (hrun : KvRun cfg calls kv) : LatestFirst calls kv := by
  show ∀ key value, kv.lookup key = some value → LatestOf calls key value
  induction hrun with
  | nil =>
      intro key value h
      rw [AList.lookup_empty] at h
      exact absurd h (Option.some_ne_none value).symm
  | @snoc calls kv kv' call run hok hstep ih =>
      intro k value hk
      cases call with
      | update key id =>
          cases hstep
          rw [lookup_kvstoreUpdate] at hk
          split at hk
          · rename_i heq
            subst heq
            cases hk
            exact ⟨id, calls, [], rfl, rfl, hok.2.1, fun _ => List.not_mem_nil, List.not_mem_nil⟩
          · rename_i hne
            refine (ih k value hk).snoc rfl (fun id' h => ?_) (fun id' _ h => KvCall.noConfusion h)
            exact hne (KvCall.update.inj h).1.symm
      | delete key id =>
          have hother (hne : k ≠ key) (hsame : kv'.lookup k = kv.lookup k) :
              LatestOf (calls ++ [.delete key id]) k value := by
            rw [hsame] at hk
            refine (ih k value hk).snoc rfl (fun id' h => KvCall.noConfusion h) (fun id' _ h => ?_)
            exact hne (KvCall.delete.inj h).1.symm
          obtain ⟨hnone, rfl⟩ | ⟨old, new, hold, hdelete, ⟨-, rfl⟩ | ⟨hhead, rfl⟩⟩ :=
            kvstoreDelete_cases hstep
          · refine hother (fun h => ?_) rfl
            rw [h, hnone] at hk
            exact Option.some_ne_none value hk.symm
          · refine hother (fun h => ?_) (AList.lookup_erase_ne fun h => ?_)
            all_goals
              rw [h, AList.lookup_erase] at hk
              exact Option.some_ne_none value hk.symm
          · by_cases hne : k = key
            · subst hne
              rw [AList.lookup_insert] at hk
              cases hk
              have hlatest := ih k old hold
              obtain ⟨first, -, -, -, hfirst, -⟩ := ih k old hold
              obtain ⟨hsame, hid⟩ := head_of_delete hfirst hdelete hhead
              apply hlatest.snoc hsame (fun id' h => KvCall.noConfusion h)
              intro id' hid' h
              rw [hfirst] at hid'
              exact hid ((KvCall.delete.inj h).2.trans (Option.some.inj hid').symm)
            · exact hother hne (AList.lookup_insert_ne hne)

end Calls

section Reload

variable {cfg cfg' : Config} {kv kv' : KvStore} {calls : List KvCall} {s : Stream}
  {tail : List UInt8} {entries : List ((_ : Key) × List Int)}

theorem kvpairFits_iff (cfg : Config) :
    KvpairFits cfg ↔ cfg.indexKeySize + cfg.indexValueLength * 8 < 2 ^ 31 := by
  rw [KvpairFits, kvpairSize]
  constructor
  · intro h
    have hlt := Int.bmod_lt (x := cfg.indexKeySize + cfg.indexValueLength * 8) (m := 2 ^ 32)
      (by decide)
    rw [toInt32] at h
    omega
  · intro h
    rw [toInt32_eq (by omega) (by omega)]

/-- A value in the longer array of the next run. -/
def paddedValue (cfg cfg' : Config) (value : List Int) : List Int :=
  value ++ List.replicate (cfg'.indexValueLength - cfg.indexValueLength) temporaryId

theorem readKvpair_of_rest {key : Key} {value : List Int} (hfits : KvpairFits cfg')
    (hkeys : cfg'.indexKeySize = cfg.indexKeySize)
    (hlengths : cfg.indexValueLength ≤ cfg'.indexValueLength) (hkey : key.length = cfg.indexKeySize)
    (hvalue : value.length = cfg.indexValueLength)
    (hids : ∀ id ∈ value, -2 ^ 63 ≤ id ∧ id < 2 ^ 63)
    (h : s.rest = encodeKvpair cfg key value ++ tail) :
    ∃ s', readKvpair cfg' s = .ok ((key, paddedValue cfg cfg' value), s') ∧ s'.rest = tail := by
  have hlt := (kvpairFits_iff cfg').mp hfits
  rw [encodeKvpair, List.append_assoc, List.append_assoc] at h
  obtain ⟨s₁, hread₁, hs₁⟩ := readExactly_of_rest h (hkey.trans hkeys.symm)
  obtain ⟨s₂, hread₂, hs₂⟩ := readExactly_of_rest hs₁ (length_leInt 4 _)
  have hnum : ofLeInt (leInt 4 (cfg.indexValueLength : Int)) = cfg.indexValueLength :=
    ofLeInt_leInt (by decide) (by omega) (by omega)
  obtain ⟨s₃, hread₃, hs₃⟩ := readIds_of_rest hids hs₂
  rw [hvalue] at hread₃
  refine ⟨s₃, bind_ok_iff.mpr ⟨(), require_of hfits, bind_ok_iff.mpr ⟨_, hread₁,
    bind_ok_iff.mpr ⟨_, hread₂, ?_⟩⟩⟩, hs₃⟩
  simp only [hnum, Int.toNat_natCast]
  refine bind_ok_iff.mpr ⟨(), require_of (by omega), bind_ok_iff.mpr ⟨_, hread₃, ?_⟩⟩
  rw [paddedValue, hvalue]
  rfl

/-- The pairs fit their allocations. -/
def EntriesSized (cfg : Config) (entries : List ((_ : Key) × List Int)) : Prop :=
  ∀ e ∈ entries, e.1.length = cfg.indexKeySize ∧ e.2.length = cfg.indexValueLength ∧
    ∀ id ∈ e.2, -2 ^ 63 ≤ id ∧ id < 2 ^ 63

theorem readKvpairs_of_rest (hfits : KvpairFits cfg')
    (hkeys : cfg'.indexKeySize = cfg.indexKeySize)
    (hlengths : cfg.indexValueLength ≤ cfg'.indexValueLength) (hsized : EntriesSized cfg entries)
    (hrest : s.rest = entries.flatMap fun e => encodeKvpair cfg e.1 e.2) (htable : KvStore) :
    readKvpairs cfg' entries.length s htable =
      .ok (entries.foldl (fun t e => t.insert e.1 (paddedValue cfg cfg' e.2)) htable) := by
  induction entries generalizing s htable with
  | nil => rfl
  | cons e entries ih =>
      obtain ⟨⟨hkey, hvalue, hids⟩, hsized⟩ := List.forall_mem_cons.mp hsized
      obtain ⟨s', hread, hs'⟩ := readKvpair_of_rest hfits hkeys hlengths hkey hvalue hids hrest
      exact bind_ok_iff.mpr ⟨_, hread, ih hsized hs' _⟩

theorem lookup_foldl_insert_map {f : List Int → List Int} (hnodup : entries.NodupKeys)
    (htable : KvStore) (key : Key) :
    (entries.foldl (fun t e => t.insert e.1 (f e.2)) htable).lookup key =
      ((entries.dlookup key).map f).or (htable.lookup key) := by
  induction entries generalizing htable with
  | nil => rfl
  | cons e entries ih =>
      obtain ⟨k, value⟩ := e
      obtain ⟨hfresh, hnodup⟩ := List.nodupKeys_cons.mp hnodup
      rw [List.foldl_cons, ih hnodup]
      by_cases hk : key = k
      · subst hk
        have hnone : entries.dlookup key = none := List.dlookup_eq_none.mpr hfresh
        rw [hnone, List.dlookup_cons_eq, AList.lookup_insert]
        rfl
      · rw [List.dlookup_cons_ne _ _ hk, AList.lookup_insert_ne hk]

/-- Each pass of the loop adds one key at most. -/
theorem length_readKvpairs_le {n : Nat} {htable : KvStore}
    (hok : readKvpairs cfg n s htable = .ok kv) : kv.keys.length ≤ htable.keys.length + n := by
  induction n generalizing s htable with
  | zero =>
      cases hok
      exact Nat.le_refl _
  | succ n ih =>
      obtain ⟨r, -, hok⟩ := bind_ok_iff.mp hok
      have hle := ih hok
      have hinsert : (htable.insert r.1.1 r.1.2).keys.length ≤ htable.keys.length + 1 := by
        rw [AList.keys_insert, List.length_cons]
        apply Nat.succ_le_succ
        apply @List.length_erase_le _ instBEqOfDecidableEq
      omega

/-- Two results of some calls that no lookup tells apart. -/
inductive SameResult : Except Abort KvStore → Except Abort KvStore → Prop
  | ok {kv kv' : KvStore} (h : ∀ key, kv'.lookup key = kv.lookup key) : SameResult (.ok kv) (.ok kv')
  | error (a : Abort) : SameResult (.error a) (.error a)

theorem SameResult.bind {f g : KvStore → Except Abort KvStore} {r r' : Except Abort KvStore}
    (h : SameResult r r')
    (hstep : ∀ kv kv' : KvStore, (∀ key, kv'.lookup key = kv.lookup key) → SameResult (f kv) (g kv')) :
    SameResult (r >>= f) (r' >>= g) := by
  cases h with
  | ok h => exact hstep _ _ h
  | error a => exact .error a

theorem kvCall_sameResult (hlength : cfg'.indexValueLength = cfg.indexValueLength)
    (h : ∀ key, kv'.lookup key = kv.lookup key) (call : KvCall) :
    SameResult (kvCall cfg kv call) (kvCall cfg' kv' call) := by
  cases call with
  | update key id =>
      refine .ok fun k => ?_
      have hfull : newKvpairFull cfg' = newKvpairFull cfg := by
        rw [newKvpairFull, newKvpairFull, hlength]
      rw [lookup_kvstoreUpdate, lookup_kvstoreUpdate, h, h, hfull]
  | delete key id =>
      show SameResult (kvstoreDelete kv key id) (kvstoreDelete kv' key id)
      rw [kvstoreDelete, kvstoreDelete, h]
      cases kv.lookup key with
      | none => exact .ok h
      | some value =>
          simp only
          cases deleteId value id with
          | error a => exact .error a
          | ok value' =>
              refine .ok fun k => ?_
              split
              · by_cases hk : k = key
                · rw [hk, AList.lookup_erase, AList.lookup_erase]
                · rw [AList.lookup_erase_ne hk, AList.lookup_erase_ne hk, h]
              · by_cases hk : k = key
                · rw [hk, AList.lookup_insert, AList.lookup_insert]
                · rw [AList.lookup_insert_ne hk, AList.lookup_insert_ne hk, h]

theorem foldE_kvCall_sameResult (hlength : cfg'.indexValueLength = cfg.indexValueLength)
    (h : ∀ key, kv'.lookup key = kv.lookup key) (later : List KvCall) :
    SameResult (foldE (kvCall cfg) kv later) (foldE (kvCall cfg') kv' later) := by
  induction later generalizing kv kv' with
  | nil => exact .ok h
  | cons call later ih => exact (kvCall_sameResult hlength h call).bind fun _ _ h => ih h

/-- The next run, with configuration `cfg'`, has the store that the calls built: it loads the same keys
with the same values, in longer arrays, and with arrays of the same length no later call tells the
difference. The first id of each pair is that of the latest update of its key. -/
structure KvSurvives (cfg cfg' : Config) (calls : List KvCall) (kv : KvStore) (dump : List UInt8) :
    Prop where
  reload : ∃ kv', initKvstoreHtable cfg' (some dump) = .ok kv' ∧
    (∀ key, kv'.lookup key = (kv.lookup key).map (paddedValue cfg cfg')) ∧
    (cfg'.indexValueLength = cfg.indexValueLength → ∀ later : List KvCall,
      SameResult (foldE (kvCall cfg) kv later) (foldE (kvCall cfg') kv' later))
  length : ∀ key value, kv.lookup key = some value → value.length = cfg.indexValueLength
  latest : LatestFirst calls kv

private theorem length_closeKvstoreHtable_int (cfg : Config) (entries : List ((_ : Key) × List Int)) :
    ∃ s', readExactly (Stream.openRead (closeKvstoreHtable cfg entries)) 4 =
        .ok (leInt 4 entries.length, s') ∧
      s'.rest = entries.flatMap fun e => encodeKvpair cfg e.1 e.2 :=
  readExactly_of_rest rfl (length_leInt 4 _)

private theorem fits_of_reload (hperm : entries.Perm kv.entries)
    (hok : initKvstoreHtable cfg' (some (closeKvstoreHtable cfg entries)) = .ok kv')
    (hlookup : ∀ key, kv'.lookup key = (kv.lookup key).map (paddedValue cfg cfg')) :
    kv.entries.length < 2 ^ 31 ∧ (kv.entries = [] ∨
      cfg'.indexKeySize + cfg'.indexValueLength * 8 < 2 ^ 31) := by
  obtain ⟨s', hread, -⟩ := length_closeKvstoreHtable_int cfg entries
  obtain ⟨r, hread', hok⟩ := bind_ok_iff.mp hok
  rw [hread] at hread'
  cases hread'
  change readKvpairs cfg' (ofLeInt (leInt 4 (entries.length : Int))).toNat s' ∅ = .ok kv' at hok
  have hcount : kv.keys.length ≤ kv'.keys.length := by
    apply List.Subperm.length_le
    apply List.subperm_of_subset kv.keys_nodup
    intro key hkey
    apply AList.lookup_isSome.mp
    rw [hlookup, Option.isSome_map]
    exact AList.lookup_isSome.mpr hkey
  have hkeys : kv.keys.length = entries.length := by
    rw [AList.keys, List.keys, List.length_map, hperm.length_eq]
  have hloaded := length_readKvpairs_le hok
  have hwrap : ofLeInt (leInt 4 (entries.length : Int)) < 2 ^ 31 := by
    rw [ofLeInt_leInt_bmod]
    have hlt := Int.bmod_lt (x := entries.length) (m := 256 ^ 4) (by decide)
    omega
  have hempty : (∅ : KvStore).keys.length = 0 := rfl
  rw [← hperm.length_eq]
  refine ⟨by omega, ?_⟩
  cases entries with
  | nil => exact Or.inl (List.nil_perm.mp hperm)
  | cons e entries =>
      rw [List.length_cons] at hkeys
      obtain ⟨n, hn⟩ : ∃ n,
          (ofLeInt (leInt 4 ((e :: entries).length : Int))).toNat = n + 1 :=
        ⟨(ofLeInt (leInt 4 ((e :: entries).length : Int))).toNat - 1, by omega⟩
      rw [hn] at hok
      obtain ⟨_, hread, -⟩ := bind_ok_iff.mp hok
      obtain ⟨_, hroom, -⟩ := bind_ok_iff.mp hread
      exact Or.inr ((kvpairFits_iff cfg').mp (require_ok_iff.mp hroom))

private theorem reload_of_fits (hkeys : cfg'.indexKeySize = cfg.indexKeySize)
    (hlengths : cfg.indexValueLength ≤ cfg'.indexValueLength) (hsized : Sized cfg kv)
    (hperm : entries.Perm kv.entries) (hnum : kv.entries.length < 2 ^ 31)
    (hroom : kv.entries = [] ∨ cfg'.indexKeySize + cfg'.indexValueLength * 8 < 2 ^ 31) :
    ∃ kv', initKvstoreHtable cfg' (some (closeKvstoreHtable cfg entries)) = .ok kv' ∧
      ∀ key, kv'.lookup key = (kv.lookup key).map (paddedValue cfg cfg') := by
  obtain ⟨s', hread, hrest⟩ := length_closeKvstoreHtable_int cfg entries
  have hcount : ofLeInt (leInt 4 (entries.length : Int)) = entries.length := by
    have hlen := hperm.length_eq
    exact ofLeInt_leInt (by decide) (by omega) (by omega)
  have hnodup : entries.NodupKeys := (List.perm_nodupKeys hperm).mpr kv.nodupKeys
  have hall : EntriesSized cfg entries := fun e he =>
    hsized e.1 e.2 (AList.mem_lookup_iff.mpr (hperm.mem_iff.mp he))
  refine ⟨entries.foldl (fun t e => t.insert e.1 (paddedValue cfg cfg' e.2)) ∅, ?_, fun key => ?_⟩
  · refine bind_ok_iff.mpr ⟨_, hread, ?_⟩
    rw [hcount, Int.toNat_natCast]
    obtain hnil | hroom := hroom
    · rw [hnil, List.perm_nil] at hperm
      subst hperm
      rfl
    · exact readKvpairs_of_rest ((kvpairFits_iff cfg').mpr hroom) hkeys hlengths hall hrest ∅
  · rw [lookup_foldl_insert_map hnodup, AList.lookup_empty, Option.or_none,
      List.perm_dlookup key hnodup hperm]
    rfl

theorem paddedValue_self (hlength : cfg'.indexValueLength = cfg.indexValueLength) (value : List Int) :
    paddedValue cfg cfg' value = value := by
  rw [paddedValue, hlength, Nat.sub_self, List.replicate_zero, List.append_nil]

/-- The next run has the store of this one exactly if the number of keys fits an `int`, and, unless
there is none, the size of a pair of the next run fits an `int32_t`. -/
theorem kvstore_survives_iff (cfg cfg' : Config) (hkeys : cfg'.indexKeySize = cfg.indexKeySize)
    (hlengths : cfg.indexValueLength ≤ cfg'.indexValueLength) {calls : List KvCall} {kv : KvStore}
    (hrun : KvRun cfg calls kv) (entries : List ((_ : Key) × List Int))
    (hperm : entries.Perm kv.entries) :
    KvSurvives cfg cfg' calls kv (closeKvstoreHtable cfg entries) ↔
      kv.entries.length < 2 ^ 31 ∧ (kv.entries = [] ∨
        cfg'.indexKeySize + cfg'.indexValueLength * 8 < 2 ^ 31) := by
  constructor
  · rintro ⟨⟨kv', hok, hlookup, -⟩, -, -⟩
    exact fits_of_reload hperm hok hlookup
  · rintro ⟨hnum, hroom⟩
    have hsized := hrun.sized
    obtain ⟨kv', hok, hlookup⟩ := reload_of_fits hkeys hlengths hsized hperm hnum hroom
    refine ⟨⟨kv', hok, hlookup, fun hlength => foldE_kvCall_sameResult hlength fun key => ?_⟩,
      fun key value h => (hsized key value h).2.1, hrun.latestFirst⟩
    rw [hlookup]
    cases kv.lookup key with
    | none => rfl
    | some value => exact congrArg some (paddedValue_self hlength value)

end Reload

section OnePair

/-- Keys of 20 bytes and values of `n` ids. -/
private def valuesOf (n : Nat) (hn : 0 < n) : Config :=
  { smallConfig .exact .physical with indexValueLength := n, indexValueLength_pos := hn }

private def onePair : KvStore :=
  kvstoreUpdate (valuesOf 1 Nat.one_pos) ∅ (List.replicate 20 7) 3

private theorem onePair_run :
    KvRun (valuesOf 1 Nat.one_pos) [.update (List.replicate 20 7) 3] onePair := by
  have hinit : KvRun (valuesOf 1 Nat.one_pos) [] ∅ := .nil
  exact hinit.after (.update (List.replicate 20 7) 3)
    ⟨List.length_replicate, by decide, by decide, by decide⟩ rfl

/-- One pair, loaded into arrays of two ids. -/
theorem kvstore_survives_iff_one_pair :
    KvSurvives (valuesOf 1 Nat.one_pos) (valuesOf 2 Nat.two_pos)
      [.update (List.replicate 20 7) 3] onePair
      (closeKvstoreHtable (valuesOf 1 Nat.one_pos) onePair.entries) :=
  (kvstore_survives_iff (valuesOf 1 Nat.one_pos) (valuesOf 2 Nat.two_pos) rfl (by decide)
    onePair_run onePair.entries (List.Perm.refl _)).mpr ⟨by decide, Or.inr (by decide)⟩

/-- A pair of 268435456 ids: its size wraps, and the next run cannot load the one pair there is. -/
theorem long_values_not_reloaded :
    ∃ (cfg cfg' : Config) (calls : List KvCall) (kv : KvStore), cfg.indexKeySize = 20 ∧
      cfg'.indexKeySize = 20 ∧ cfg.indexValueLength = 1 ∧ cfg'.indexValueLength = 2 ^ 28 ∧
      KvRun cfg calls kv ∧ kv.entries.length = 1 ∧
      ¬ KvSurvives cfg cfg' calls kv (closeKvstoreHtable cfg kv.entries) := by
  refine ⟨valuesOf 1 Nat.one_pos, valuesOf (2 ^ 28) (by decide), _, onePair, rfl, rfl, rfl, rfl,
    onePair_run, rfl, fun h => ?_⟩
  obtain ⟨kv', hok, hlookup, -⟩ := h.reload
  obtain hnil | hroom := (fits_of_reload (List.Perm.refl _) hok hlookup).2
  · exact absurd hnil (List.cons_ne_nil _ _)
  · exact absurd hroom (by decide)

end OnePair

end Destor
