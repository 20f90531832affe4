import PartyMix.Lib.ChainPrefix
import PartyMix.PaymentAcceptance

/-!
# Ideal accumulators

The object the accumulator verifiers are meant to speak about: a nullifier
accumulator value is the list of the sets appended so far, a spent accumulator
value is the set of the spent ids.  A verifier is sound when it accepts only true
statements about these.  `idealPrimitives` decides the statements themselves.
-/

namespace PartyMix

open ChainPrefix FixedBytes MachineWord

variable {A : Type}

def UnionMembershipSound (P : Primitives A Nav) : Prop :=
  ∀ nav element proof, P.verifyUnionMembership nav element proof = true →
    ∃ set ∈ nav, element ∈ set

def IsPrefixSound (P : Primitives A Nav) : Prop :=
  ∀ values nav proof, P.verifyIsPrefix values nav proof = true → ∀ value ∈ values, value <+: nav

def DistinctElementSound (P : Primitives A Nav) : Prop :=
  ∀ left right proof, P.verifyDistinctElement left right proof = true → Fork left right

/-- A spent accumulator value is the set of the spent ids, and an accepted insertion
    adds ids that are new and do not repeat. -/
structure NonMembershipSound {V : Type} (P : Primitives (Finset CoinIdOnChain) V) : Prop where
  accNew : P.accNew = ∅
  accepted : ∀ old new ids proof, P.verifyNonMembershipAndInsert old new ids proof = true →
    ids.Nodup ∧ (∀ id ∈ ids, id ∉ old) ∧ new = old ∪ ids.toFinset

/-- The verifiers that decide the ideal statements.  The fixed message and the
    aggregate signatures are accepted. -/
def idealPrimitives : Primitives (Finset CoinIdOnChain) Nav where
  hash := rollingHash
  fromDigestSlice _ := some ⟨zeroBytes 32⟩
  debugPublicKey pk := debugBytes pk.serialize
  debugNav nav := DebugText.debugNat nav.length
  accNew := ∅
  verifyNonMembershipAndInsert old new ids _ :=
    decide ids.Nodup && (ids.all fun id => decide (id ∉ old)) &&
      decide (new = old ∪ ids.toFinset)
  verifyUnionMembership nav element _ := nav.any fun set => decide (element ∈ set)
  verifyIsPrefix values nav _ := values.all fun value => value.isPrefixOf nav
  verifyDistinctElement left right _ := (left.zip right).any fun (a, b) => a != b
  aggVerify _ _ := true
  commitRetrieve _ _ := ⟨zeroBytes 32⟩
  commitVerify _ _ _ := true

theorem idealPrimitives_unionMembershipSound : UnionMembershipSound idealPrimitives := by
  intro nav element proof haccept
  simpa [idealPrimitives] using haccept

theorem idealPrimitives_isPrefixSound : IsPrefixSound idealPrimitives := by
  intro values nav proof haccept value hvalue
  have hall := List.all_eq_true.mp haccept value hvalue
  exact List.isPrefixOf_iff_prefix.mp hall

theorem idealPrimitives_distinctElementSound : DistinctElementSound idealPrimitives := by
  intro left right proof haccept
  obtain ⟨⟨a, b⟩, hmem, hne⟩ := List.any_eq_true.mp haccept
  obtain ⟨i, hi⟩ := List.mem_iff_getElem?.mp hmem
  rw [List.getElem?_zip_eq_some] at hi
  exact ⟨i, a, b, hi.1, hi.2, bne_iff_ne.mp hne⟩

theorem idealPrimitives_nonMembershipSound : NonMembershipSound idealPrimitives := by
  constructor
  · rfl
  · intro old new ids proof haccept
    simpa [idealPrimitives, and_assoc] using haccept

/-! ### A concrete account on an ideal chain -/

def idealState (nav : Nav) (balance : UInt64) : AcctState (Finset CoinIdOnChain) Nav where
  essence := ⟨sampleKey, balance, sampleKey⟩
  spentAccum := ∅
  nullifierAccum := nav

def idealPayment (nav conditionalNav : Nav) :
    PaymentInitLocalInput (Finset CoinIdOnChain) Nav where
  acctId := sampleKey
  acctCommRands := []
  newCoins := [⟨⟨zeroBytes 32⟩, 0, beBytes 2 1⟩]
  fee := 0
  newSpentAccum := ∅
  snmiProof := []
  newNullifierPk := sampleKey
  conditionalNav := conditionalNav
  txHashRandomness := zeroBytes 32
  nullifierTxCommPk := sampleKey
  nullifierTxComm := ⟨zeroBytes 32⟩
  nullifierAccum := nav
  napProof := []

def idealFinalize (nav : Nav) (blockchainLoc : BlockchainLocation) :
    PaymentFinalizeLocalInput Nav where
  feeAcctComm := ⟨zeroBytes 32⟩
  blockchainLoc := blockchainLoc
  nullifierAccum := nav
  nmProof := []
  napProof := []

end PartyMix
