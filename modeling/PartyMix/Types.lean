import Mathlib.Data.Finmap
import PartyMix.Protocol

/-!
# Mixer data

`types.rs`, the part that the wallet, the node and the deposit path read.  A Rust
`HashMap` is a `Finmap`, whose content has no order; code that iterates a map is
given an `IterOrder`, an arbitrary enumeration of every map's entries.
-/

namespace PartyMix

open FixedBytes MachineWord

variable {A V : Type}

structure Uuid where
  bytes : Bytes 16
deriving DecidableEq

def Uuid.nil : Uuid := ⟨zeroBytes 16⟩

inductive DepositStatus where
  | pendingConsolidation
  | consolidated
  | rejected
deriving DecidableEq

structure PoolAccount (A V : Type) where
  id : Uuid
  label : String
  acctId : PublicKey
  state : AcctState A V
  stateProof : List UInt8
  isPrimary : Bool
deriving DecidableEq

structure PoolCoin (V : Type) where
  coin : Coin V
  proof : List UInt8
  poolAccountId : Uuid
deriving DecidableEq

structure LiabilityEntry where
  userIdHash : Bytes 32
  credited : UInt64
  withdrawn : UInt64
deriving DecidableEq

def LiabilityEntry.available (entry : LiabilityEntry) : UInt64 :=
  saturatingSub entry.credited entry.withdrawn

structure MixerConfig where
  depositConfirmations : UInt32
  withdrawalServiceFee : UInt64
  publisherFee : UInt64
  conditionalNavDepth : UInt32
  allowBatchedWithdrawals : Bool
  maxBatchSize : Nat
deriving DecidableEq

def MixerConfig.default : MixerConfig where
  depositConfirmations := 6
  withdrawalServiceFee := 1000
  publisherFee := 500
  conditionalNavDepth := 6
  allowBatchedWithdrawals := false
  maxBatchSize := 1

structure DepositReceipt where
  depositId : Uuid
  creditedAmount : UInt64
  status : DepositStatus
deriving DecidableEq

/-! ### Hash maps -/

abbrev HashMap (κ ν : Type) := Finmap fun _ : κ => ν

/-- An order in which the values of every map are iterated. -/
structure IterOrder (κ ν : Type) where
  entries : HashMap κ ν → List (Sigma fun _ : κ => ν)
  entries_coe : ∀ m : HashMap κ ν, (entries m : Multiset (Sigma fun _ : κ => ν)) = m.entries

/-- Some order; nothing is known about which. -/
noncomputable def IterOrder.unspecified {κ ν : Type} : IterOrder κ ν where
  entries m := m.entries.toList
  entries_coe m := Multiset.coe_toList m.entries

def IterOrder.values {κ ν : Type} (order : IterOrder κ ν) (m : HashMap κ ν) : List ν :=
  (order.entries m).map Sigma.snd

theorem IterOrder.mem_values {κ ν : Type} [DecidableEq κ] (order : IterOrder κ ν)
    (m : HashMap κ ν) {value : ν} :
    value ∈ order.values m ↔ ∃ key, m.lookup key = some value := by
  have hentries : ∀ entry, entry ∈ order.entries m ↔ entry ∈ m.entries := by
    intro entry
    rw [← order.entries_coe m, Multiset.mem_coe]
  rw [IterOrder.values, List.mem_map]
  constructor
  · rintro ⟨⟨key, _⟩, hentry, rfl⟩
    exact ⟨key, Finmap.lookup_eq_some_iff.mpr ((hentries _).mp hentry)⟩
  · rintro ⟨key, hkey⟩
    exact ⟨⟨key, value⟩, (hentries _).mpr (Finmap.lookup_eq_some_iff.mp hkey), rfl⟩

/-- A map with one entry has one order. -/
theorem IterOrder.values_singleton {κ ν : Type} (order : IterOrder κ ν) (key : κ) (value : ν) :
    order.values (Finmap.singleton key value) = [value] := by
  have hentries := order.entries_coe (Finmap.singleton key value)
  have hone : order.entries (Finmap.singleton key value) = [⟨key, value⟩] :=
    Multiset.coe_eq_singleton.mp hentries
  rw [IterOrder.values, hone]
  rfl

end PartyMix
