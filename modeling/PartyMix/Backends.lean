import PartyMix.Protocol

/-!
# Backend traits

`crypto/pcd.rs`, `crypto/nisshac.rs` and the nullifier accumulator of
`crypto/accumulators.rs`.  A trait is a structure of its functions; the functions no
modelled code calls (key generation and signing of NISSHAC, the proofs of the
accumulator) are left out.  `mockPcd`, `mockNisshac` and `mockNullifierAccumulator` are
the backends of `crypto/mock.rs`.
-/

namespace PartyMix

open DebugText FixedBytes MachineWord

inductive PcdError where
  | proveFailed (message : String)
  | verifyFailed (message : String)
deriving DecidableEq

/-- The `Display` text of the error. -/
def PcdError.text : PcdError → String
  | .proveFailed message => "proving failed: " ++ message
  | .verifyFailed message => "verification failed: " ++ message

structure PcdBackend (A V : Type) where
  ProvKey : Type
  VerKey : Type
  keygen : ProvKey × VerKey
  prove : ProvKey → EdgeLabel A V → LocalInput A V → List (EdgeLabel A V) →
    List (List UInt8) → Except PcdError (List UInt8)
  verify : VerKey → EdgeLabel A V → List UInt8 → Except PcdError Bool

inductive NisshacError where
  | failed (message : String)
deriving DecidableEq

structure NisshacBackend where
  Signature : Type
  aggregate : List (Signature × PublicKey × Message) → Except NisshacError PartyMix.Signature

structure NullifierAccumulatorBackend where
  ManagerState : Type
  newManager : ManagerState
  value : ManagerState → ToSAccValue
  appendSet : ManagerState → List ToSAccSetElement → ManagerState
  removeSet : ManagerState → ManagerState

variable {A V : Type}

/-- The arguments of a `prove` call after the proving key. -/
structure ProveCall (A V : Type) where
  z : EdgeLabel A V
  wLoc : LocalInput A V
  zIn : List (EdgeLabel A V)
  proofsIn : List (List UInt8)

def ProveCall.run (B : PcdBackend A V) (call : ProveCall A V) : Except PcdError (List UInt8) :=
  B.prove B.keygen.1 call.z call.wLoc call.zIn call.proofsIn

/-- `MOCK_PCD_PREFIX`. -/
def mockPcdPrefix : List UInt8 := intoBytes "MOCK_PCD_PROOF".toList

def mockPcd : PcdBackend A V where
  ProvKey := Unit
  VerKey := Unit
  keygen := ((), ())
  prove _ _ _ _ _ := .ok mockPcdPrefix
  verify _ _ proof := .ok (mockPcdPrefix.isPrefixOf proof)

def mockNisshac : NisshacBackend where
  Signature := List UInt8
  aggregate _ := .ok ⟨intoBytes "mock_agg_sig".toList⟩

structure MockNullifierState where
  value : ToSAccValue
  sets : List (List ToSAccSetElement)
deriving DecidableEq

/-- Appending and removing hash the number of sets; a new manager has the value zero. -/
def mockNullifierAccumulator (hash : List UInt8 → Bytes 32) : NullifierAccumulatorBackend where
  ManagerState := MockNullifierState
  newManager := ⟨⟨zeroBytes 32⟩, []⟩
  value state := state.value
  appendSet state set :=
    let sets := state.sets ++ [set]
    ⟨⟨hash (intoBytes (debugNat sets.length))⟩, sets⟩
  removeSet state :=
    let sets := state.sets.dropLast
    ⟨⟨hash (intoBytes (debugNat sets.length))⟩, sets⟩

/-- The literal `b"Shielded CSV: state update"`. -/
def stateUpdateText : List UInt8 := intoBytes "Shielded CSV: state update".toList

def stateUpdateMessage (P : Primitives A V) : Exec Message :=
  expect "valid message length" (P.fromDigestSlice stateUpdateText)

end PartyMix
