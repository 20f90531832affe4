import PartyMix.DepositReplay
import PartyMix.WalletRun

/-!
# Solvency

A deposit credits its user with the amount of the coin it brings, a withdrawal only
lowers what is available, and no modelled operation but `consolidate_into_pool` takes
a coin out.  The coins held cover the available balances, so they do with the
balances of the pool accounts added.
-/

namespace PartyMix

open FixedBytes MachineWord Transition

variable {A V M : Type} [DecidableEq V] {B : PcdBackend A V} {P : Primitives A V}
  {mgr : ToSAccM M V} {mixer : Mixer} {wallet next : WalletState A V}

/-- Every event but a bare credit, which brings no coin. -/
def Backed : WalletEvent B M → Prop
  | .credited _ _ => False
  | _ => True

def Covered (wallet : WalletState A V) : Prop := wallet.totalAvailable ≤ wallet.unspentTotal

theorem covered_walletStep {event : WalletEvent B M} (hcovered : Covered wallet)
    (hbacked : Backed event) (h : WalletStep P mgr mixer wallet event next) : Covered next := by
  unfold Covered at hcovered ⊢
  rcases walletStep_cases h with ⟨hliabilities, hcoins, -⟩ | ⟨userIdHash, amount, rfl, -⟩ |
    ⟨userIdHash, poolCoin, -, rfl⟩ | ⟨userIdHash, debit, request, -, -, hdebit⟩
  · -- ledger and coins are untouched
    unfold WalletState.totalAvailable WalletState.unspentTotal at hcovered ⊢
    rw [hliabilities, hcoins]
    exact hcovered
  · cases hbacked
  · -- a deposit: what is credited is held as a coin
    have hcredit := wallet.totalAvailable_creditUser userIdHash poolCoin.coin.essence.amount
    have hcoins : ((wallet.creditUser userIdHash
        poolCoin.coin.essence.amount).addUnspentCoin poolCoin).unspentTotal =
          wallet.unspentTotal + poolCoin.coin.essence.amount.toNat := by
      simp [WalletState.unspentTotal, WalletState.addUnspentCoin, WalletState.creditUser]
    rw [hcoins]
    exact Nat.le_trans hcredit (Nat.add_le_add_right hcovered _)
  · -- a queued request only lowers what is available
    obtain ⟨havailable, -, hcoins, -⟩ := WalletState.totals_debitUser hdebit
    have hheld : next.unspentTotal = wallet.unspentTotal := by
      rw [WalletState.unspentTotal, hcoins]
      rfl
    omega

/-- **Solvency.**  In every wallet that a run of backed events reaches, the available
    balances are covered by the coins held and the pool accounts. -/
theorem run_solvent (P : Primitives A V) (mgr : ToSAccM M V) (mixer : Mixer)
    (events : List (WalletEvent B M)) (wallet : WalletState A V)
    (hrun : Run (WalletStep P mgr mixer) (WalletState.new mgr.zero) events wallet)
    (hbacked : ∀ event ∈ events, Backed event) :
    wallet.totalAvailable ≤ wallet.unspentTotal + wallet.balanceTotal := by
  have hcovered : Covered wallet := by
    induction hrun with
    | start => exact Nat.le_refl _
    | snoc _ hlast ih =>
      apply covered_walletStep (ih ?_) (hbacked _ (List.mem_append_right _ (by simp))) hlast
      intro event hevent
      exact hbacked event (List.mem_append_left _ hevent)
  exact Nat.le_trans hcovered (Nat.le_add_right _ _)

def depositMixer : Mixer where
  pool := ⟨MixerConfig.default⟩
  deposits := sampleHandler
  withdrawals := ⟨⟨{ MixerConfig.default with withdrawalServiceFee := 1 }⟩⟩

def depositReceived : WalletEvent (mockPcd : PcdBackend (Finset CoinIdOnChain) Nav) Nav :=
  .received sampleNode (beBytes 32 1) samplePayload Uuid.nil
    (.ok ⟨Uuid.nil, 7, .pendingConsolidation⟩)

def depositQueued : WalletEvent (mockPcd : PcdBackend (Finset CoinIdOnChain) Nav) Nav :=
  .queued (beBytes 32 1) ⟨Uuid.nil, 5, ⟨zeroBytes 32⟩, zeroBytes 32⟩ Uuid.nil
    (.ok ⟨Uuid.nil, beBytes 32 1, 5, ⟨zeroBytes 32⟩, 1, .queued⟩)

/-- A deposit of 7, of which 5 and a fee of 1 are reserved. -/
theorem sampleDeposit_solvent : ∃ wallet,
    Run (WalletStep idealPrimitives .ideal depositMixer) (WalletState.new [])
        [depositReceived, depositQueued] wallet ∧
      wallet.totalAvailable = 1 ∧
      wallet.totalAvailable ≤ wallet.unspentTotal + wallet.balanceTotal := by
  obtain ⟨held, hreceived, hheld⟩ : ∃ held,
      WalletStep idealPrimitives .ideal depositMixer (WalletState.new []) depositReceived held ∧
        held = ((WalletState.new []).creditUser (beBytes 32 1) 7).addUnspentCoin
          ⟨chainCoin [], mockPcdPrefix, Uuid.nil⟩ := ⟨_, sampleReceived_step _ _, rfl⟩
  obtain ⟨wallet, hqueued, havailable⟩ : ∃ wallet,
      WalletStep idealPrimitives .ideal depositMixer held depositQueued wallet ∧
        wallet.totalAvailable = 1 := by
    subst hheld
    exact ⟨_, rfl, rfl⟩
  have hrun := Run.snoc (Run.snoc Run.start hreceived) hqueued
  have hbacked : ∀ event ∈ [depositReceived, depositQueued], Backed event := by
    simp [depositReceived, depositQueued, Backed]
  exact ⟨wallet, hrun, havailable,
    run_solvent idealPrimitives .ideal depositMixer _ wallet hrun hbacked⟩

end PartyMix
