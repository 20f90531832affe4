import PartyMix.ChainValue
import PartyMix.Shortfall

/-!
# What stands behind the liabilities

The graph of payments is bounded by what was issued, the books of the mixer by what it
received.  A deposit is what joins the two: an accepted coin is a label of the graph, on
the chain of the node it was shown to, at the mixer's address.  While no settled payment
spends from that address and no coin is credited twice, the mixer owes and holds no more
than was issued.
-/

namespace PartyMix

open FiniteMap FixedBytes MachineWord ProofGraph Transition

/-! ### Received coins -/

section Received

variable {A V M : Type} {B : PcdBackend A V}

variable [DecidableEq V] {P : Primitives A V} {mgr : ToSAccM M V} {mixer : Mixer}
  {wallet next : WalletState A V}

end Received

/-! ### Deposits on the chain -/

section OnChain

variable {B : PcdBackend (Finset CoinIdOnChain) Nav} {P : Primitives (Finset CoinIdOnChain) Nav}
  {profile : Profile} {config : MixerConfig} {node later : MixerNode B Nav}

variable {issued : List (Coin Nav)} {graph : List (PaymentVertex (Finset CoinIdOnChain) Nav)}
  {known : List (EdgeLabel (Finset CoinIdOnChain) Nav)} {mixer : Mixer}
  {events : List (BookEvent B Nav)} {start wallet : WalletState (Finset CoinIdOnChain) Nav}

end OnChain

end PartyMix
