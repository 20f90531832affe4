import PartyMix.PaymentAcceptance

/-!
# The ids of the coins a payment mints

The index loop of `payment_init` compares neighbours only and skips the first
position.  The coins that are output start at the second position, so their indices
are strictly increasing and none is the fee index; with one transaction hash and one
location for all of them, the index is what tells two coins apart.
-/

namespace PartyMix

open FixedBytes MachineWord

variable {A V : Type}

/-! ### The index loop -/

theorem checkIdcs_cons_cons {prev idx : Bytes 2} {rest : List (Bytes 2)} :
    checkIdcs (prev :: idx :: rest) = true ↔
      prev.toList < idx.toList ∧ idx ≠ CoinEssence.FEE_IDX ∧ checkIdcs (idx :: rest) = true := by
  simp [checkIdcs, and_assoc]

/-- Neighbours that increase make a list that increases everywhere. -/
theorem checkIdcs_increasing {idcs : List (Bytes 2)} (h : checkIdcs idcs = true) :
    idcs.Pairwise fun left right => left.toList < right.toList := by
  induction idcs with
  | nil => exact List.Pairwise.nil
  | cons prev idcs ih =>
    cases idcs with
    | nil => exact List.pairwise_singleton _ _
    | cons idx rest =>
      obtain ⟨hlt, -, hrest⟩ := checkIdcs_cons_cons.mp h
      have hincreasing := ih hrest
      refine List.pairwise_cons.mpr ⟨?_, hincreasing⟩
      intro later hlater
      rcases List.mem_cons.mp hlater with rfl | hlater
      · exact hlt
      · exact List.lt_trans hlt (List.rel_of_pairwise_cons hincreasing hlater)

theorem checkIdcs_not_fee {first : Bytes 2} {idcs : List (Bytes 2)}
    (h : checkIdcs (first :: idcs) = true) : ∀ idx ∈ idcs, idx ≠ CoinEssence.FEE_IDX := by
  induction idcs generalizing first with
  | nil =>
    intro idx hidx
    cases hidx
  | cons second rest ih =>
    intro idx hidx
    obtain ⟨-, hfee, hrest⟩ := checkIdcs_cons_cons.mp h
    rcases List.mem_cons.mp hidx with rfl | hidx
    · exact hfee
    · exact ih hrest idx hidx

/-- From the second position on, the indices together with the fee index do not
    repeat. -/
theorem nodup_outputIdcs {first : Bytes 2} {idcs : List (Bytes 2)}
    (h : checkIdcs (first :: idcs) = true) : (idcs ++ [CoinEssence.FEE_IDX]).Nodup := by
  have hincreasing := (List.pairwise_cons.mp (checkIdcs_increasing h)).2
  have hnodup : idcs.Nodup := by
    refine hincreasing.imp ?_
    rintro left right hlt rfl
    exact List.lt_irrefl _ hlt
  rw [List.nodup_append]
  refine ⟨hnodup, List.nodup_singleton _, ?_⟩
  intro idx hidx fee hfee
  rw [List.mem_singleton] at hfee
  rw [hfee]
  exact checkIdcs_not_fee h idx hidx

/-! ### Minted coins -/

/-- Both ids end with the index, so coins with distinct indices have distinct ids. -/
theorem nodup_ids_of_nodup_idcs {coins : List (Coin V)}
    (hidcs : (coins.map fun coin => coin.essence.idx).Nodup) :
    (coins.map Coin.id).Nodup ∧ (coins.map Coin.onChainId).Nodup := by
  have hnodup : coins.Nodup := List.Nodup.of_map _ hidcs
  have hdistinct := (List.nodup_map_iff_inj_on hnodup).mp hidcs
  constructor
  · apply hnodup.map_on
    intro left hleft right hright hid
    exact hdistinct left hleft right hright (append_inj hid).2
  · apply hnodup.map_on
    intro left hleft right hright hid
    exact hdistinct left hleft right hright (append_inj hid).2

/-- The indices of the coins an accepted payment outputs, with the fee index. -/
theorem nodup_coinEssences_idcs {P : Primitives A V} {profile : Profile}
    {prevState : AcctState A V} {prevCoins : List (Coin V)} {wLoc : PaymentInitLocalInput A V}
    {outputs : PaymentInitOutput A V × PaymentInitOutputFee V}
    (hinit : paymentInit P profile prevState prevCoins wLoc = .ok (some outputs)) :
    (outputs.1.coinEssences.map CoinEssence.idx ++ [CoinEssence.FEE_IDX]).Nodup := by
  obtain ⟨newBalance, hchecks, hout⟩ := paymentInit_eq_some_iff.mp hinit
  obtain ⟨-, hbranch⟩ := paymentInitOutputs_eq_some_iff.mp hout
  rcases hbranch with ⟨-, rfl⟩ | ⟨-, -, first, rest, hcoins, rfl⟩
  · -- the no-op branch outputs no coin
    exact List.nodup_singleton _
  · have hordered := hchecks.ordered
    rw [hcoins, List.map_cons] at hordered
    exact nodup_outputIdcs hordered

/-- **Distinct ids.**  The coins of an accepted payment and its fee coin have
    pairwise distinct ids and pairwise distinct on-chain ids, wherever they are
    finalized. -/
theorem mintedCoins_ids_nodup (P : Primitives A V) (profile : Profile)
    (prevState newState : AcctState A V) (prevCoins coins : List (Coin V)) (feeCoin : Coin V)
    (wLoc : PaymentInitLocalInput A V) (out : PaymentInitOutput A V)
    (feeOut : PaymentInitOutputFee V) (wFin wFinFee : PaymentFinalizeLocalInput V)
    (hinit : paymentInit P profile prevState prevCoins wLoc = .ok (some (out, feeOut)))
    (hfin : paymentFinalize P out wFin = some (newState, coins))
    (hfee : paymentFinalizeFee P feeOut wFinFee = some feeCoin) :
    ((coins ++ [feeCoin]).map Coin.id).Nodup ∧
      ((coins ++ [feeCoin]).map Coin.onChainId).Nodup := by
  obtain ⟨-, hresult⟩ := paymentFinalize_eq_some_iff.mp hfin
  obtain ⟨-, hfeeCoin⟩ := paymentFinalizeFee_eq_some_iff.mp hfee
  obtain ⟨-, rfl⟩ := Prod.mk.inj hresult
  apply nodup_ids_of_nodup_idcs
  have hidcs := nodup_coinEssences_idcs hinit
  simpa [hfeeCoin, finalizedCoin, Function.comp_def] using hidcs

/-- A payment of two coins, at indices 1 and 2. -/
def twoCoinPayment : PaymentInitLocalInput AccValue ToSAccValue :=
  { samplePayment 4 0 with
    newCoins := [⟨⟨zeroBytes 32⟩, 4, beBytes 2 1⟩, ⟨⟨zeroBytes 32⟩, 3, beBytes 2 2⟩] }

theorem twoCoinPayment_ids_nodup :
    ∃ out feeOut newState coins feeCoin,
      paymentInit permissivePrimitives .debug (sampleState 9) [] twoCoinPayment =
          .ok (some (out, feeOut)) ∧
        paymentFinalize permissivePrimitives out sampleFinalize = some (newState, coins) ∧
        paymentFinalizeFee permissivePrimitives feeOut sampleFinalize = some feeCoin ∧
        coins.length = 1 ∧ ((coins ++ [feeCoin]).map Coin.onChainId).Nodup := by
  have hids := mintedCoins_ids_nodup permissivePrimitives .debug (sampleState 9) _ [] _ _
    twoCoinPayment _ _ sampleFinalize sampleFinalize rfl rfl rfl
  exact ⟨_, _, _, _, _, rfl, rfl, rfl, rfl, hids.2⟩

end PartyMix
