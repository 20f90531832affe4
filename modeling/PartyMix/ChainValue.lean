import Mathlib.Algebra.BigOperators.Option
import PartyMix.AccountLine
import PartyMix.Lib.Charging

/-!
# The value on one chain

Every settled payment takes its balance from a settled payment of its account and its
coins from settled payments or from the issued coins, and nothing is taken twice.  So
the balances and coins of a chain that no settled payment has spent are worth at most
what was issued, unless a payment on the chain adds value of its own.
-/

namespace PartyMix

open Charging ChainPrefix DebugText FixedBytes MachineWord ProofGraph Transition

variable {P : Primitives (Finset CoinIdOnChain) Nav} {profile : Profile}
  {B : PcdBackend (Finset CoinIdOnChain) Nav} {issued : List (Coin Nav)}
  {graph : List (PaymentVertex (Finset CoinIdOnChain) Nav)}
  {known : List (EdgeLabel (Finset CoinIdOnChain) Nav)} {node : MixerNode B Nav}
  {payment other : Payment (Finset CoinIdOnChain) Nav}

/-! ### One payment -/

/-- An applied payment drops a first coin that makes up for the fee it pays twice. -/
def AddsNoValue {A V : Type} (P : Primitives A V) (payment : Payment A V) : Prop :=
  takesNoopBranch P payment.init = false →
    (payment.prevState.essence.balance.toNat + coinTotal payment.prevCoins) % 2 ^ 64 +
        2 * payment.init.fee.toNat ≤
      payment.prevState.essence.balance.toNat + coinTotal payment.prevCoins +
        droppedAmount payment.init

namespace Payment

/-- What a payment takes: the old balance and the coins it spends. -/
def taken {A V : Type} (P : Primitives A V) (payment : Payment A V) : Nat :=
  payment.prevState.essence.balance.toNat + coinTotal (payment.spentCoins P)

/-- What a payment leaves: the new balance, the output coins and the fee. -/
def left {A V : Type} (payment : Payment A V) : Nat :=
  payment.newState.balance.toNat +
    (essenceTotal payment.outputs.1.coinEssences + payment.outputs.2.fee.toNat)

end Payment

theorem Settled.left_le_taken {chain : Nav} (h : Settled P profile graph known chain payment)
    (hvalue : AddsNoValue P payment) : payment.left ≤ payment.taken P := by
  obtain ⟨newBalance, hchecks, hout⟩ := paymentInit_eq_some_iff.mp h.paid.accepted
  obtain ⟨-, hcase⟩ := paymentInitOutputs_eq_some_iff.mp hout
  rcases hcase with ⟨hnoop, heq⟩ | ⟨happlied, -, first, rest, hfirst, heq⟩
  · have hnone : payment.spentCoins P = [] := if_pos hnoop
    simp [Payment.left, Payment.taken, Payment.newState, hnone, heq, noopOutputs, coinTotal]
  · have hall : payment.spentCoins P = payment.prevCoins :=
      if_neg (by simp [takesNoopBranch, happlied])
    have hadds := hvalue happlied
    have hbalance := hchecks.balance
    simp only [droppedAmount, hfirst, essenceTotal_cons, essenceTotal_nil, List.take_succ_cons,
      List.take_zero] at hadds hbalance
    simp only [Payment.left, Payment.taken, Payment.newState, hall, heq, appliedOutputs]
    omega

/-! ### Where balances and coins come from -/

/-- A state on the chain is the new state of a settled payment. -/
theorem settled_of_state (hread : ReadOnChain P profile issued graph known node)
    {state : AcctState (Finset CoinIdOnChain) Nav} (hstate : .acctState state ∈ known)
    (hchain : state.nullifierAccum <+: node.nullifierAccum) :
    ∃ payment, Settled P profile graph known node.nullifierAccum payment ∧
      payment.newState = state.essence := by
  rcases hread.compliant.vertex_of_known hstate with hissued | ⟨v, -, hout, hcomplies, hins⟩
  · obtain ⟨coin, -, habs⟩ := List.mem_map.mp hissued
    cases habs
  obtain ⟨zOut, wLoc, zIn⟩ := v
  obtain rfl : zOut = .acctState state := hout
  cases protocolEdge_of_accepts hcomplies with
  | payment _ hout =>
    -- a payment yields outputs, and only a finalization yields a state
    rcases hout with habs | habs <;> cases habs
  | opening _ _ hout =>
    rcases hout with habs | habs <;> cases habs
  | @finalization _ output wFin found coins hfin hout =>
    obtain ⟨prevState, prevCoins, init, outputs, hpaid, hlabel | hlabel⟩ :=
      paid_of_output hread.compliant (hins _ (List.mem_singleton_self _)) (Or.inl ⟨output, rfl⟩)
    · obtain rfl := EdgeLabel.paymentInitOutput.inj hlabel
      obtain ⟨-, hresult⟩ := paymentFinalize_eq_some_iff.mp hfin
      obtain ⟨rfl, -⟩ := Prod.mk.inj hresult
      rcases hout with hstate | ⟨coin, -, habs⟩
      · obtain rfl := EdgeLabel.acctState.inj hstate
        exact ⟨⟨prevState, prevCoins, init, outputs⟩, ⟨hpaid, wFin, Or.inl ⟨_, hfin⟩, hchain⟩,
          rfl⟩
      · cases habs
    · cases hlabel

/-- The coin is an output coin of the payment, or its fee coin. -/
def Payment.Yields {A V : Type} (payment : Payment A V) (coin : Coin V) : Prop :=
  (coin.essence ∈ payment.outputs.1.coinEssences ∧
      coin.id = payment.outputs.1.partialOutput.txHash ++ coin.essence.idx) ∨
    (coin.essence.amount = payment.outputs.2.fee ∧
      coin.id = payment.outputs.1.partialOutput.txHash ++ CoinEssence.FEE_IDX)

/-- A coin on the chain was issued or yielded by a settled payment. -/
theorem source_of_coin (hread : ReadOnChain P profile issued graph known node) {coin : Coin Nav}
    (hcoin : .coin coin ∈ known) (hchain : coin.nullifierAccum <+: node.nullifierAccum) :
    coin ∈ issued ∨ ∃ payment, Settled P profile graph known node.nullifierAccum payment ∧
      payment.Yields coin := by
  rcases coin_origin hread.compliant hcoin with hissued | ⟨_, _, _, outputs, wFin, hpaid, hmint⟩
  · exact Or.inl hissued
  · obtain ⟨heq, hessence⟩ := hmint.coin_eq hpaid.accepted
    have hfin : wFin.nullifierAccum <+: node.nullifierAccum := by
      rw [heq] at hchain
      exact hchain
    have hhash : coin.txHash = outputs.1.partialOutput.txHash := by
      rw [heq]
      rfl
    refine Or.inr ⟨⟨_, _, _, outputs⟩, ⟨hpaid, wFin, hmint.finalizes, hfin⟩, ?_⟩
    rcases hessence with hout | hfee
    · exact Or.inl ⟨hout, by rw [Coin.id, hhash]⟩
    · refine Or.inr ⟨by rw [hfee], ?_⟩
      rw [Coin.id, hhash, hfee]

/-- Settled payments of one key yield the same coins. -/
theorem Settled.yields_of_key (hread : ReadOnChain P profile issued graph known node)
    (h : Settled P profile graph known node.nullifierAccum payment)
    (hother : Settled P profile graph known node.nullifierAccum other)
    (hkey : payment.key = other.key) {coin : Coin Nav} (hyields : other.Yields coin) :
    payment.Yields coin := by
  have houtcome := h.sameOutcome hread hother hkey
  have hhash := h.txHash_eq hread hother hkey
  rw [Payment.Yields, houtcome.coins, houtcome.fee, hhash]
  exact hyields

/-! ### Sums over the chain -/

/-- Settled payments, one of each key that a settled payment spends. -/
structure OneOfEachKey (P : Primitives (Finset CoinIdOnChain) Nav) (profile : Profile)
    (graph : List (PaymentVertex (Finset CoinIdOnChain) Nav))
    (known : List (EdgeLabel (Finset CoinIdOnChain) Nav)) (chain : Nav)
    (payments : Finset (Payment (Finset CoinIdOnChain) Nav)) : Prop where
  settled : ∀ payment ∈ payments, Settled P profile graph known chain payment
  once : ∀ payment ∈ payments, ∀ other ∈ payments, payment.key = other.key → payment = other
  all : ∀ payment, Settled P profile graph known chain payment →
    ∃ kept ∈ payments, kept.key = payment.key

section Sums

variable {payments : Finset (Payment (Finset CoinIdOnChain) Nav)}
  {states : Finset (AcctState (Finset CoinIdOnChain) Nav)} {coins : Finset (Coin Nav)}

/-- The kept payment of a key left the same state. -/
theorem OneOfEachKey.newState (hread : ReadOnChain P profile issued graph known node)
    (hkept : OneOfEachKey P profile graph known node.nullifierAccum payments)
    (h : Settled P profile graph known node.nullifierAccum payment) :
    ∃ kept ∈ payments, kept.newState = payment.newState := by
  obtain ⟨kept, hmem, hkey⟩ := hkept.all payment h
  exact ⟨kept, hmem, ((hkept.settled kept hmem).sameOutcome hread h hkey).state⟩

end Sums

end PartyMix
