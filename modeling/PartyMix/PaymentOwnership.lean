import PartyMix.PaymentAcceptance

/-!
# Which spent coins are shown to belong to the account

`payment_init` zips the previous coins with the commitment openings, and a zip
ends with the shorter list.  The coins that have an opening at their position are
checked; the coins beyond the last opening are not, although their amounts are
counted.
-/

namespace PartyMix

open FixedBytes MachineWord

variable {A V : Type}

/-- One of the openings shows that the coin's address commits to the account. -/
def ShownOwned (P : Primitives A V) (id : PublicKey) (acctCommRands : List (Bytes 32))
    (coin : Coin V) : Prop :=
  ∃ rand ∈ acctCommRands, coin.essence.address = Commitment.commit P id.serialize rand

/-- The zipped loop shows ownership of the coins that have an opening. -/
theorem shownOwned_of_ownsPrevCoins {P : Primitives A V} {id : PublicKey}
    {prevCoins : List (Coin V)} {acctCommRands : List (Bytes 32)}
    (h : ownsPrevCoins P id prevCoins acctCommRands = true) :
    ∀ coin ∈ prevCoins.take acctCommRands.length, ShownOwned P id acctCommRands coin := by
  induction prevCoins generalizing acctCommRands with
  | nil =>
    intro coin hcoin
    simp at hcoin
  | cons prevCoin prevCoins ih =>
    intro coin hcoin
    cases acctCommRands with
    | nil => simp at hcoin
    | cons acctCommRand acctCommRands =>
      simp only [ownsPrevCoins, List.zip_cons_cons, List.all_cons, Bool.and_eq_true,
        beq_iff_eq] at h
      rw [List.length_cons, List.take_succ_cons, List.mem_cons] at hcoin
      rcases hcoin with rfl | hcoin
      · exact ⟨acctCommRand, List.mem_cons_self, h.1⟩
      · obtain ⟨rand, hrand, haddress⟩ := ih h.2 coin hcoin
        exact ⟨rand, List.mem_cons_of_mem _ hrand, haddress⟩

theorem forall_shownOwned_iff {P : Primitives A V} {id : PublicKey}
    {prevCoins : List (Coin V)} {acctCommRands : List (Bytes 32)}
    (h : ownsPrevCoins P id prevCoins acctCommRands = true) :
    (∀ coin ∈ prevCoins, ShownOwned P id acctCommRands coin) ↔
      ∀ coin ∈ prevCoins.drop acctCommRands.length, ShownOwned P id acctCommRands coin := by
  constructor
  · intro hall coin hcoin
    exact hall coin (List.mem_of_mem_drop hcoin)
  · intro hrest coin hcoin
    rw [← List.take_append_drop acctCommRands.length prevCoins, List.mem_append] at hcoin
    rcases hcoin with hcoin | hcoin
    · exact shownOwned_of_ownsPrevCoins h coin hcoin
    · exact hrest coin hcoin

theorem forall_shownOwned_of_length_le {P : Primitives A V} {id : PublicKey}
    {prevCoins : List (Coin V)} {acctCommRands : List (Bytes 32)}
    (h : ownsPrevCoins P id prevCoins acctCommRands = true)
    (hlength : prevCoins.length ≤ acctCommRands.length) :
    ∀ coin ∈ prevCoins, ShownOwned P id acctCommRands coin := by
  rw [forall_shownOwned_iff h, List.drop_eq_nil_of_le hlength]
  intro coin hcoin
  cases hcoin

/-- **Ownership of spent coins.**  An accepted payment shows ownership of every
    previous coin exactly when the coins beyond the last opening, which the loop
    skips, have an opening too; there are none when no opening is missing. -/
theorem paymentInit_shownOwned_iff (P : Primitives A V) (profile : Profile)
    (prevCoins : List (Coin V)) (wLoc : PaymentInitLocalInput A V)
    (outputs : PaymentInitOutput A V × PaymentInitOutputFee V) :
    (∀ prevState : AcctState A V,
      paymentInit P profile prevState prevCoins wLoc = .ok (some outputs) →
        ((∀ coin ∈ prevCoins, ShownOwned P prevState.essence.id wLoc.acctCommRands coin) ↔
          ∀ coin ∈ prevCoins.drop wLoc.acctCommRands.length,
            ShownOwned P prevState.essence.id wLoc.acctCommRands coin) ∧
        (prevCoins.length ≤ wLoc.acctCommRands.length →
          ∀ coin ∈ prevCoins, ShownOwned P prevState.essence.id wLoc.acctCommRands coin)) ∧
      (paymentInitNewacct P profile prevCoins wLoc = .ok (some outputs) →
        ((∀ coin ∈ prevCoins, ShownOwned P wLoc.acctId wLoc.acctCommRands coin) ↔
          ∀ coin ∈ prevCoins.drop wLoc.acctCommRands.length,
            ShownOwned P wLoc.acctId wLoc.acctCommRands coin) ∧
        (prevCoins.length ≤ wLoc.acctCommRands.length →
          ∀ coin ∈ prevCoins, ShownOwned P wLoc.acctId wLoc.acctCommRands coin)) := by
  constructor
  · intro prevState hinit
    obtain ⟨newBalance, hchecks, -⟩ := paymentInit_eq_some_iff.mp hinit
    exact ⟨forall_shownOwned_iff hchecks.owned, forall_shownOwned_of_length_le hchecks.owned⟩
  · -- a new account's payment is checked under the account's own id
    intro hinit
    obtain ⟨newBalance, hchecks, -⟩ := paymentInit_eq_some_iff.mp hinit
    exact ⟨forall_shownOwned_iff hchecks.owned, forall_shownOwned_of_length_le hchecks.owned⟩

def sampleCoin (owner : PublicKey) : Coin ToSAccValue where
  essence := ⟨Commitment.commit permissivePrimitives owner.serialize (zeroBytes 32), 100,
    beBytes 2 1⟩
  txHash := zeroBytes 32
  blockchainLoc := zeroBytes 6
  nullifierAccum := ⟨zeroBytes 32⟩

/-- A coin of somebody else, spent without any opening, raises the balance by 100. -/
theorem paymentInit_spends_foreign_coin :
    ∃ out feeOut,
      paymentInit permissivePrimitives .debug (sampleState 0) [sampleCoin ⟨beBytes 32 2⟩]
          (samplePayment 0 0) = .ok (some (out, feeOut)) ∧
        out.acctStateEssence.balance = 100 ∧
        ¬ ∀ coin ∈ [sampleCoin ⟨beBytes 32 2⟩], ShownOwned permissivePrimitives
          (sampleState 0).essence.id (samplePayment 0 0).acctCommRands coin := by
  refine ⟨_, _, rfl, rfl, ?_⟩
  intro hall
  obtain ⟨rand, hrand, -⟩ := hall _ List.mem_cons_self
  cases hrand

theorem sampleCoin_shownOwned :
    (∀ coin ∈ [sampleCoin sampleKey], ShownOwned permissivePrimitives
        (sampleState 0).essence.id [zeroBytes 32] coin) ∧
      ∀ coin ∈ [sampleCoin sampleKey], ShownOwned permissivePrimitives sampleKey
        [zeroBytes 32] coin := by
  have howned (id : PublicKey) (h : id = sampleKey) :
      ownsPrevCoins permissivePrimitives id [sampleCoin sampleKey] [zeroBytes 32] = true := by
    subst h
    simp [ownsPrevCoins, sampleCoin]
  have hinit (prevState : AcctState AccValue ToSAccValue)
      (hid : prevState.essence.id = sampleKey) (hbalance : prevState.essence.balance = 0) :
      ∃ outputs, paymentInit permissivePrimitives .debug prevState [sampleCoin sampleKey]
        { samplePayment 0 0 with acctCommRands := [zeroBytes 32] } = .ok (some outputs) := by
    refine ⟨_, paymentInit_eq_some_iff.mpr ⟨100, ⟨howned _ hid, ?_, ?_, ?_, ?_, rfl, rfl⟩, rfl⟩⟩
    · decide
    · decide
    · rw [hbalance]
      decide
    · rw [hbalance]
      decide
  constructor
  · obtain ⟨outputs, haccepted⟩ := hinit (sampleState 0) rfl rfl
    exact ((paymentInit_shownOwned_iff _ _ _ _ outputs).1 (sampleState 0) haccepted).2 le_rfl
  · obtain ⟨outputs, haccepted⟩ := hinit (newacct permissivePrimitives
      { samplePayment 0 0 with acctCommRands := [zeroBytes 32] }) rfl rfl
    exact ((paymentInit_shownOwned_iff _ _ _ _ outputs).2 haccepted).2 le_rfl

end PartyMix
