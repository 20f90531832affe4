import PartyMix.TransactionHash

/-!
# The value of the mock spent accumulator

The spent accumulator of `crypto/accumulators.rs` and its mock.  It stands for the set of
coins an account has spent, and `prove_non_membership_and_insert` for the proof that
none of the ids is in it yet.  The mock keeps the ids in the order in which they come,
hashes their `{:?}` text and never refuses an id.
-/

namespace PartyMix

open DebugText FixedBytes MachineWord

/-! ### The trait and its mock -/

inductive AccumulatorError where
  | operationFailed (message : String)

structure SpentAccumulatorBackend where
  ManagerState : Type
  Proof : Type
  newManager : ManagerState
  value : ManagerState → AccValue
  proveNonMembershipAndInsert : ManagerState → List CoinIdOnChain →
    Except AccumulatorError (ManagerState × Proof)
  verifyNonMembershipAndInsert : AccValue → AccValue → List CoinIdOnChain → Proof →
    Except AccumulatorError Bool

structure MockSpentState where
  value : AccValue
  inserted : List CoinIdOnChain

/-- `b"mock_snmi"`. -/
def mockSnmi : List UInt8 := intoBytes "mock_snmi".toList

/-- The bytes that are hashed: `format!("{:?}", inserted).into_bytes()`. -/
def insertedBytes (inserted : List CoinIdOnChain) : List UInt8 :=
  intoBytes (debugList debugBytes inserted)

def mockSpentAccumulator (hash : List UInt8 → Bytes 32) : SpentAccumulatorBackend where
  ManagerState := MockSpentState
  Proof := List UInt8
  newManager := ⟨⟨zeroBytes 32⟩, []⟩
  value state := state.value
  proveNonMembershipAndInsert state coinOnChainIds :=
    let inserted := state.inserted ++ coinOnChainIds
    .ok (⟨⟨hash (insertedBytes inserted)⟩, inserted⟩, mockSnmi)
  verifyNonMembershipAndInsert _ _ _ proof := .ok (proof == mockSnmi)

/-! ### Calls from a new manager -/

/-- The state and the proofs after one more call. -/
def SpentAccumulatorBackend.insertBatch (B : SpentAccumulatorBackend)
    (before : B.ManagerState × List B.Proof) (ids : List CoinIdOnChain) :
    Except AccumulatorError (B.ManagerState × List B.Proof) := do
  let (state, proof) ← B.proveNonMembershipAndInsert before.1 ids
  return (state, before.2 ++ [proof])

/-- The state and the proofs after the calls, one for every batch of ids. -/
def SpentAccumulatorBackend.after (B : SpentAccumulatorBackend)
    (batches : List (List CoinIdOnChain)) :
    Except AccumulatorError (B.ManagerState × List B.Proof) :=
  batches.foldlM B.insertBatch (B.newManager, [])

theorem SpentAccumulatorBackend.after_snoc (B : SpentAccumulatorBackend)
    (batches : List (List CoinIdOnChain)) (ids : List CoinIdOnChain) :
    B.after (batches ++ [ids]) = (B.after batches).bind fun before => B.insertBatch before ids := by
  rw [after, List.foldlM_append]
  apply bind_congr
  intro before
  exact bind_pure _

variable {hash : List UInt8 → Bytes 32}

/-- What the mock holds after the calls: the ids in order, and their hash unless there
    was no call. -/
def mockSpentAfter (hash : List UInt8 → Bytes 32) (batches : List (List CoinIdOnChain)) :
    MockSpentState where
  value := if batches = [] then ⟨zeroBytes 32⟩ else ⟨hash (insertedBytes batches.flatten)⟩
  inserted := batches.flatten

theorem insertBatch_mockSpentAfter (hash : List UInt8 → Bytes 32)
    (batches : List (List CoinIdOnChain)) (proofs : List (List UInt8)) (ids : List CoinIdOnChain) :
    (mockSpentAccumulator hash).insertBatch (mockSpentAfter hash batches, proofs) ids =
      .ok (mockSpentAfter hash (batches ++ [ids]), proofs ++ [mockSnmi]) := by
  have hstate : mockSpentAfter hash (batches ++ [ids]) =
      ⟨⟨hash (insertedBytes (batches.flatten ++ ids))⟩, batches.flatten ++ ids⟩ := by
    simp [mockSpentAfter]
  rw [hstate]
  rfl

/-- No call fails, whatever ids it is given. -/
theorem after_mockSpent (hash : List UInt8 → Bytes 32) (batches : List (List CoinIdOnChain)) :
    (mockSpentAccumulator hash).after batches =
      .ok (mockSpentAfter hash batches, List.replicate batches.length mockSnmi) := by
  induction batches using List.reverseRecOn with
  | nil => rfl
  | append_singleton batches ids ih =>
    have hlast := insertBatch_mockSpentAfter hash batches (List.replicate batches.length mockSnmi)
      ids
    rw [← List.replicate_succ'] at hlast
    rw [SpentAccumulatorBackend.after_snoc, ih, List.length_append, List.length_singleton]
    exact hlast

theorem insertedBytes_injective : Function.Injective insertedBytes := by
  have hids : Readable (debugList debugBytes : List CoinIdOnChain → List Char) :=
    readable_debugList (readable_debugBytes 8) fun id s t h =>
      absurd (List.cons.inj h).1 (by decide)
  exact intoBytes_injective.comp hids.injective

/-- The hash tells the two texts apart, and both from the value of a new manager. -/
structure Separates (hash : List UInt8 → Bytes 32) (text other : List UInt8) : Prop where
  injective : hash text = hash other → text = other
  text_ne_zero : hash text ≠ zeroBytes 32
  other_ne_zero : hash other ≠ zeroBytes 32

theorem value_mockSpentAfter_eq_iff {left right : List (List CoinIdOnChain)}
    (hhash : Separates hash (insertedBytes left.flatten) (insertedBytes right.flatten)) :
    (mockSpentAfter hash left).value = (mockSpentAfter hash right).value ↔
      left.flatten = right.flatten ∧ (left = [] ↔ right = []) := by
  have hids : hash (insertedBytes left.flatten) = hash (insertedBytes right.flatten) ↔
      left.flatten = right.flatten := by
    constructor
    · intro h
      exact insertedBytes_injective (hhash.injective h)
    · intro h
      rw [h]
  have hleft := hhash.text_ne_zero
  have hright := hhash.other_ne_zero
  unfold mockSpentAfter
  by_cases hcalled : left = []
  · by_cases hother : right = []
    · simp [hcalled, hother]
    · -- only the right one was called, and its hash is not zero
      simp [hcalled, hother, hright.symm]
  · by_cases hother : right = []
    · simp [hcalled, hother, hleft]
    · simp [hcalled, hother, hids]

/-- **The value of the mock spent accumulator.**  Every sequence of calls succeeds, also
    with ids that are inserted already, and its proofs are accepted for any two values
    and any ids.  Unless two texts collide, two sequences leave the same value exactly
    when they insert the same ids in the same order, however they are cut into batches,
    and both make a call or neither does. -/
theorem mock_spent_values_agree_iff (hash : List UInt8 → Bytes 32)
    (left right : List (List CoinIdOnChain)) :
    ∃ leftState rightState leftProofs rightProofs,
      (mockSpentAccumulator hash).after left = .ok (leftState, leftProofs) ∧
      (mockSpentAccumulator hash).after right = .ok (rightState, rightProofs) ∧
      (∀ proof ∈ leftProofs, ∀ old new ids,
        (mockSpentAccumulator hash).verifyNonMembershipAndInsert old new ids proof =
          .ok true) ∧
      (Separates hash (insertedBytes left.flatten) (insertedBytes right.flatten) →
        ((mockSpentAccumulator hash).value leftState =
            (mockSpentAccumulator hash).value rightState ↔
          left.flatten = right.flatten ∧ (left = [] ↔ right = []))) := by
  refine ⟨_, _, _, _, after_mockSpent hash left, after_mockSpent hash right, ?_,
    value_mockSpentAfter_eq_iff⟩
  intro proof hproof old new ids
  rw [List.eq_of_mem_replicate hproof]
  rfl

/-! ### Orders and batches of two ids -/

def spentInOrder : List (List CoinIdOnChain) := [[beBytes 8 1], [beBytes 8 2]]

def spentReversed : List (List CoinIdOnChain) := [[beBytes 8 2, beBytes 8 1]]

theorem spentReversed_separated :
    Separates rollingHash (insertedBytes spentInOrder.flatten)
      (insertedBytes spentReversed.flatten) := by
  constructor <;> decide +kernel

/-- One set of coins, spent in two orders, has two values. -/
theorem spentReversed_value_differs :
    ∃ leftState rightState leftProofs rightProofs,
      (mockSpentAccumulator rollingHash).after spentInOrder = .ok (leftState, leftProofs) ∧
      (mockSpentAccumulator rollingHash).after spentReversed = .ok (rightState, rightProofs) ∧
      (mockSpentAccumulator rollingHash).value leftState ≠
        (mockSpentAccumulator rollingHash).value rightState := by
  obtain ⟨leftState, rightState, leftProofs, rightProofs, hleft, hright, -, hvalues⟩ :=
    mock_spent_values_agree_iff rollingHash spentInOrder spentReversed
  refine ⟨leftState, rightState, leftProofs, rightProofs, hleft, hright, ?_⟩
  intro hsame
  have hagree := (hvalues spentReversed_separated).mp hsame
  exact absurd hagree.1 (by decide)

end PartyMix
