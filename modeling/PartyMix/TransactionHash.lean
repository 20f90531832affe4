import PartyMix.PaymentAcceptance

/-!
# What the transaction hash commits to

`Transaction::hash` formats the randomness and the five fields of a transaction with
`{:?}`, one space between two of them, and hashes the bytes.  The parts have no fixed
width: a number has one to twenty digits and the two lists any length.  Every part can
still be read off the text in front of the space, so the bytes determine the
transaction and the randomness.
-/

namespace PartyMix

open DebugText FixedBytes

variable {A V : Type} {P : Primitives A V}

/-! ### The texts of the fields -/

theorem readable_debugBytes (n : Nat) : Readable (debugBytes : Bytes n → List Char) := by
  have hbyte : Readable fun byte : UInt8 => debugNat byte.toNat :=
    readable_debugNat.comp fun _ _ h => UInt8.toNat_inj.mp h
  have hbytes := readable_debugList hbyte fun byte => debugNat_append_ne (by decide) byte.toNat
  exact hbytes.comp List.Vector.toList_injective

theorem readable_debugCommitment : Readable debugCommitment := by
  have hbytes : Readable fun commitment : Commitment => debugBytes commitment.bytes :=
    (readable_debugBytes 32).comp fun _ _ h => congrArg Commitment.mk h
  exact readable_debugTuple "Commitment" hbytes

def coinEssenceFields : List (String × (CoinEssence → List Char)) :=
  [("address", fun essence => debugCommitment essence.address),
   ("amount", fun essence => debugNat essence.amount.toNat),
   ("idx", fun essence => debugBytes essence.idx)]

theorem readable_debugCoinEssence : Readable debugCoinEssence := by
  apply readable_debugStruct "CoinEssence" coinEssenceFields
  · simp only [coinEssenceFields, List.forall_mem_cons]
    refine ⟨?_, ?_, ?_, by simp⟩
    · exact readable_debugCommitment.delimited.comp CoinEssence.address
    · exact readable_debugNat.delimited.comp fun essence : CoinEssence => essence.amount.toNat
    · exact (readable_debugBytes 2).delimited.comp CoinEssence.idx
  · rintro ⟨address, amount, idx⟩ ⟨address', amount', idx'⟩ h
    simp only [coinEssenceFields, List.forall_mem_cons] at h
    obtain ⟨haddress, hamount, hidx, -⟩ := h
    obtain rfl := readable_debugCommitment.injective haddress
    obtain rfl := UInt64.toNat_inj.mp (readable_debugNat.injective hamount)
    obtain rfl := (readable_debugBytes 2).injective hidx
    rfl

def acctStateEssenceFields (P : Primitives A V) :
    List (String × (AcctStateEssence → List Char)) :=
  [("id", fun essence => P.debugPublicKey essence.id),
   ("balance", fun essence => debugNat essence.balance.toNat),
   ("nullifier_pk", fun essence => P.debugPublicKey essence.nullifierPk)]

theorem readable_debugAcctStateEssence (hkey : Readable P.debugPublicKey) :
    Readable (debugAcctStateEssence P) := by
  apply readable_debugStruct "AcctStateEssence" (acctStateEssenceFields P)
  · simp only [acctStateEssenceFields, List.forall_mem_cons]
    refine ⟨?_, ?_, ?_, by simp⟩
    · exact hkey.delimited.comp AcctStateEssence.id
    · exact readable_debugNat.delimited.comp fun essence : AcctStateEssence =>
        essence.balance.toNat
    · exact hkey.delimited.comp AcctStateEssence.nullifierPk
  · rintro ⟨id, balance, nullifierPk⟩ ⟨id', balance', nullifierPk'⟩ h
    simp only [acctStateEssenceFields, List.forall_mem_cons] at h
    obtain ⟨hid, hbalance, hnullifierPk, -⟩ := h
    obtain rfl := hkey.injective hid
    obtain rfl := UInt64.toNat_inj.mp (readable_debugNat.injective hbalance)
    obtain rfl := hkey.injective hnullifierPk
    rfl

theorem readable_prevCoins : Readable (debugList debugBytes : List CoinId → List Char) :=
  readable_debugList (readable_debugBytes 34) fun id s t h =>
    absurd (List.cons.inj h).1 (by decide)

theorem readable_newCoins : Readable (debugList debugCoinEssence) :=
  readable_debugList readable_debugCoinEssence fun essence s t h =>
    absurd (List.cons.inj h).1 (by decide)

/-! ### The text of a transaction -/

/-- The parts that `Transaction::hash` formats, of a transaction and its randomness. -/
def preimageFields (P : Primitives A V) : List (Transaction V × Bytes 32 → List Char) :=
  [fun input => debugBytes input.2,
   fun input => P.debugNav input.1.conditionalNav,
   fun input => debugAcctStateEssence P input.1.prevState,
   fun input => debugList debugBytes input.1.prevCoins,
   fun input => debugAcctStateEssence P input.1.newState,
   fun input => debugList debugCoinEssence input.1.newCoins]

theorem delimited_preimageFields (hkey : Readable P.debugPublicKey)
    (hnav : Readable P.debugNav) : ∀ text ∈ preimageFields P, Delimited text := by
  have hstate := (readable_debugAcctStateEssence hkey).delimited
  simp only [preimageFields, List.forall_mem_cons]
  refine ⟨?_, ?_, ?_, ?_, ?_, ?_, by simp⟩
  · exact (readable_debugBytes 32).delimited.comp Prod.snd
  · exact hnav.delimited.comp (Transaction.conditionalNav ∘ Prod.fst)
  · exact hstate.comp (Transaction.prevState ∘ Prod.fst)
  · exact readable_prevCoins.delimited.comp (Transaction.prevCoins ∘ Prod.fst)
  · exact hstate.comp (Transaction.newState ∘ Prod.fst)
  · exact readable_newCoins.delimited.comp (Transaction.newCoins ∘ Prod.fst)

theorem preimage_inj (hkey : Readable P.debugPublicKey) (hnav : Readable P.debugNav)
    {tx other : Transaction V} {randomness otherRandomness : Bytes 32}
    (h : tx.preimage P randomness = other.preimage P otherRandomness) :
    randomness = otherRandomness ∧ tx = other := by
  have hsep : ∀ rest, EndsNumber ([' '] ++ rest) := by simp
  have htext : List.intercalate [' '] ((preimageFields P).map (· (tx, randomness))) ++ [] =
      List.intercalate [' '] ((preimageFields P).map (· (other, otherRandomness))) ++ [] :=
    congrArg (· ++ []) h
  obtain ⟨hparts, -⟩ := intercalate_fields_inj hsep (delimited_preimageFields hkey hnav)
    endsNumber_nil endsNumber_nil htext
  have hstate := (readable_debugAcctStateEssence hkey).injective
  simp only [preimageFields, List.forall_mem_cons] at hparts
  obtain ⟨hrandomness, hnavs, hprevState, hprevCoins, hnewState, hnewCoins, -⟩ := hparts
  cases tx
  cases other
  obtain rfl := (readable_debugBytes 32).injective hrandomness
  obtain rfl := hnav.injective hnavs
  obtain rfl := hstate hprevState
  obtain rfl := readable_prevCoins.injective hprevCoins
  obtain rfl := hstate hnewState
  obtain rfl := readable_newCoins.injective hnewCoins
  exact ⟨rfl, rfl⟩

/-! ### The stubs of the source -/

/-- What is assumed of the third-party text of a public key. -/
structure FixedLengthText (debugPublicKey : PublicKey → List Char) : Prop where
  length : ∀ key other, (debugPublicKey key).length = (debugPublicKey other).length
  injective : Function.Injective debugPublicKey

theorem FixedLengthText.readable {debugPublicKey : PublicKey → List Char}
    (h : FixedLengthText debugPublicKey) : Readable debugPublicKey :=
  ⟨delimited_of_length h.length, h.injective⟩

theorem readable_debugNav (hash : List UInt8 → Bytes 32)
    (fromDigestSlice : List UInt8 → Option Message) (debugPublicKey : PublicKey → List Char) :
    Readable (sourcePrimitives hash fromDigestSlice debugPublicKey).debugNav := by
  have hbytes : Readable fun value : ToSAccValue => debugBytes value.bytes :=
    (readable_debugBytes 32).comp fun _ _ h => congrArg ToSAccValue.mk h
  exact readable_debugTuple "ToSAccValue" hbytes

/-- **The hash input determines the transaction.**  Two transactions, with any numbers
    of previous coin ids and new coins, that format to the same bytes are equal, and so
    is the randomness. -/
theorem preimage_determines_transaction (hash : List UInt8 → Bytes 32)
    (fromDigestSlice : List UInt8 → Option Message) (debugPublicKey : PublicKey → List Char)
    (hkeys : FixedLengthText debugPublicKey) (tx other : Transaction ToSAccValue)
    (randomness otherRandomness : Bytes 32)
    (h : intoBytes
        (tx.preimage (sourcePrimitives hash fromDigestSlice debugPublicKey) randomness) =
      intoBytes
        (other.preimage (sourcePrimitives hash fromDigestSlice debugPublicKey)
          otherRandomness)) :
    randomness = otherRandomness ∧ tx = other := by
  have hnav := readable_debugNav hash fromDigestSlice debugPublicKey
  exact preimage_inj hkeys.readable hnav (intoBytes_injective h)

/-- The key's bytes in hexadecimal. -/
def hexPublicKey (key : PublicKey) : List Char := debugHex key.serialize.toList

theorem hexPublicKey_fixedLength : FixedLengthText hexPublicKey := by
  constructor
  · intro key other
    rw [hexPublicKey, hexPublicKey, length_debugHex, length_debugHex, List.Vector.toList_length,
      List.Vector.toList_length]
  · rintro ⟨key⟩ ⟨other⟩ h
    exact congrArg PublicKey.mk (List.Vector.toList_injective (debugHex_injective h))

/-- A balance of 10 and a coin of 5 pay for a coin of 4 with a fee of 1; the new balance
    is the one that `payment_init` computes. -/
def sampleTransaction : Transaction ToSAccValue :=
  paymentInitTransaction (sampleState 10)
    [⟨⟨⟨zeroBytes 32⟩, 5, beBytes 2 1⟩, zeroBytes 32, zeroBytes 6, ⟨zeroBytes 32⟩⟩]
    (samplePayment 4 1) 12

/-- What formats to the bytes of the payment's transaction is that transaction. -/
theorem sampleTransaction_determined :
    zeroBytes 32 = (samplePayment 4 1).txHashRandomness ∧
      (⟨⟨zeroBytes 32⟩, ⟨sampleKey, 10, sampleKey⟩, [zeroBytes 32 ++ beBytes 2 1],
        ⟨sampleKey, 12, sampleKey⟩, [⟨⟨zeroBytes 32⟩, 4, beBytes 2 1⟩]⟩ :
          Transaction ToSAccValue) = sampleTransaction :=
  preimage_determines_transaction rollingHash (fun _ => none) hexPublicKey
    hexPublicKey_fixedLength _ _ _ _ rfl

end PartyMix
