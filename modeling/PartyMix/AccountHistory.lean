import PartyMix.DoubleSpend

/-!
# Accounts and chains

An account lives through steps of `payment_init` and `payment_finalize`, each on the
state the one before it left.  The applied branch asks for the previous state's
accumulator value to be a prefix, the finalizer for that of the pay-init output, and
the no-op branch for nothing: an account stays on its chain as long as its no-op
steps start from a prefix.  Between two payments on one chain the branches exclude
each other, since a fork is permanent.
-/

namespace PartyMix

open ChainPrefix FixedBytes MachineWord Transition

variable {A : Type} {P : Primitives A Nav} {profile : Profile}

/-! ### Account histories -/

/-- A step of an account: the state it starts from, what it is given, and what it
    leaves. -/
structure PaymentStep (A V : Type) where
  prevState : AcctState A V
  prevCoins : List (Coin V)
  init : PaymentInitLocalInput A V
  outputs : PaymentInitOutput A V × PaymentInitOutputFee V
  fin : PaymentFinalizeLocalInput V
  newState : AcctState A V
  newCoins : List (Coin V)

/-- Accepted steps.  An account is opened once and continued from its last state. -/
inductive AccountStep {V : Type} (P : Primitives A V) (profile : Profile) :
    Option (AcctState A V) → PaymentStep A V → Option (AcctState A V) → Prop
  | opened {step : PaymentStep A V} :
      step.prevState = newacct P step.init →
      paymentInitNewacct P profile step.prevCoins step.init = .ok (some step.outputs) →
      paymentFinalize P step.outputs.1 step.fin = some (step.newState, step.newCoins) →
        AccountStep P profile none step (some step.newState)
  | continued {step : PaymentStep A V} :
      paymentInit P profile step.prevState step.prevCoins step.init = .ok (some step.outputs) →
      paymentFinalize P step.outputs.1 step.fin = some (step.newState, step.newCoins) →
        AccountStep P profile (some step.prevState) step (some step.newState)

theorem AccountStep.accepted {V : Type} {P : Primitives A V}
    {acct next : Option (AcctState A V)} {step : PaymentStep A V}
    (h : AccountStep P profile acct step next) :
    paymentInit P profile step.prevState step.prevCoins step.init = .ok (some step.outputs) ∧
      paymentFinalize P step.outputs.1 step.fin = some (step.newState, step.newCoins) := by
  cases h with
  | opened hstart hinit hfin =>
    rw [hstart]
    exact ⟨hinit, hfin⟩
  | continued hinit hfin => exact ⟨hinit, hfin⟩

/-! ### What the checks say about the chain -/

theorem finalize_extends (hsound : IsPrefixSound P) {prevState : AcctState A Nav}
    {prevCoins : List (Coin Nav)} {wLoc : PaymentInitLocalInput A Nav}
    {outputs : PaymentInitOutput A Nav × PaymentInitOutputFee Nav}
    {wFin : PaymentFinalizeLocalInput Nav} {result : AcctState A Nav × List (Coin Nav)}
    (hinit : paymentInit P profile prevState prevCoins wLoc = .ok (some outputs))
    (hfin : paymentFinalize P outputs.1 wFin = some result) :
    wLoc.nullifierAccum <+: wFin.nullifierAccum := by
  obtain ⟨hinternal, -⟩ := paymentFinalize_eq_some_iff.mp hfin
  obtain ⟨hnap, -⟩ := paymentFinalizeInternal_eq_true_iff.mp hinternal
  have hvalue := hsound _ _ _ hnap _ (List.mem_singleton_self _)
  rw [(paymentInit_partialOutput hinit).2.2.1] at hvalue
  exact hvalue

theorem newState_extends_init (hsound : IsPrefixSound P)
    {acct next : Option (AcctState A Nav)} {step : PaymentStep A Nav}
    (h : AccountStep P profile acct step next) :
    step.newState.nullifierAccum = step.fin.nullifierAccum ∧
      step.init.nullifierAccum <+: step.fin.nullifierAccum := by
  obtain ⟨hinit, hfin⟩ := h.accepted
  obtain ⟨-, hresult⟩ := paymentFinalize_eq_some_iff.mp hfin
  obtain ⟨hstate, -⟩ := Prod.mk.inj hresult
  exact ⟨by rw [hstate], finalize_extends hsound hinit hfin⟩

theorem requiredPrefixes_of_applied (hsound : IsPrefixSound P) {prevState : AcctState A Nav}
    {prevCoins : List (Coin Nav)} {wLoc : PaymentInitLocalInput A Nav}
    {outputs : PaymentInitOutput A Nav × PaymentInitOutputFee Nav}
    (hinit : paymentInit P profile prevState prevCoins wLoc = .ok (some outputs))
    (happlied : takesNoopBranch P wLoc = false) :
    ∀ value ∈ requiredPrefixes prevState prevCoins wLoc, value <+: wLoc.nullifierAccum := by
  obtain ⟨newBalance, -, hout⟩ := paymentInit_eq_some_iff.mp hinit
  obtain ⟨-, ⟨hnoop, -⟩ | ⟨-, hrequired, -⟩⟩ := paymentInitOutputs_eq_some_iff.mp hout
  · rw [takesNoopBranch, hnoop] at happlied
    cases happlied
  · exact hsound _ _ _ hrequired

/-! ### Staying on a chain -/

def NoopFromPrefix (P : Primitives A Nav) (step : PaymentStep A Nav) : Prop :=
  takesNoopBranch P step.init = true →
    step.prevState.nullifierAccum <+: step.init.nullifierAccum

theorem step_extends (hsound : IsPrefixSound P) {acct next : Option (AcctState A Nav)}
    {step : PaymentStep A Nav} (h : AccountStep P profile acct step next)
    (hnoop : NoopFromPrefix P step) :
    step.prevState.nullifierAccum <+: step.newState.nullifierAccum := by
  obtain ⟨hnew, hfin⟩ := newState_extends_init hsound h
  rw [hnew]
  cases hbranch : takesNoopBranch P step.init with
  | true => exact (hnoop hbranch).trans hfin
  | false =>
    have hrequired := requiredPrefixes_of_applied hsound h.accepted.1 hbranch
    have hprev : step.prevState.nullifierAccum ∈
        requiredPrefixes step.prevState step.prevCoins step.init := by simp [requiredPrefixes]
    exact (hrequired _ hprev).trans hfin

/-- What a history says about the chain: every step extends the value it starts
    from, and the last state extends them all. -/
structure OnOneChain (history : List (PaymentStep A Nav)) (acct : Option (AcctState A Nav)) :
    Prop where
  steps : ∀ step ∈ history,
    step.prevState.nullifierAccum <+: step.newState.nullifierAccum
  last : ∀ step ∈ history, ∃ final, acct = some final ∧
    step.newState.nullifierAccum <+: final.nullifierAccum

theorem onOneChain_snoc (hsound : IsPrefixSound P) {history : List (PaymentStep A Nav)}
    {acct next : Option (AcctState A Nav)} {step : PaymentStep A Nav}
    (hchain : OnOneChain history acct) (hnoop : NoopFromPrefix P step)
    (h : AccountStep P profile acct step next) : OnOneChain (history ++ [step]) next := by
  have hextends := step_extends hsound h hnoop
  constructor
  · intro other hother
    rcases List.mem_append.mp hother with hold | hnew
    · exact hchain.steps other hold
    · -- the new step extends its own previous state
      rw [List.mem_singleton.mp hnew]
      exact hextends
  · intro other hother
    cases h with
    | opened =>
      rcases List.mem_append.mp hother with hold | hnew
      · -- nothing comes before an account is opened
        obtain ⟨final, hfinal, -⟩ := hchain.last other hold
        cases hfinal
      · rw [List.mem_singleton.mp hnew]
        exact ⟨_, rfl, List.prefix_refl _⟩
    | continued =>
      -- an account goes on from the state that ends the history
      rcases List.mem_append.mp hother with hold | hnew
      · obtain ⟨final, hfinal, hprev⟩ := hchain.last other hold
        obtain rfl := Option.some.inj hfinal
        exact ⟨_, rfl, hprev.trans hextends⟩
      · rw [List.mem_singleton.mp hnew]
        exact ⟨_, rfl, List.prefix_refl _⟩

/-- **An account stays on its chain.**  In a history whose no-op steps start from a
    prefix, every state extends the one it was produced from, and a state off a
    chain is never continued on that chain.  A no-op step that starts from a fork
    always leaves the chain of the state it starts from. -/
theorem account_stays_on_chain (P : Primitives A Nav) (profile : Profile)
    (hsound : IsPrefixSound P) :
    (∀ history acct,
      Meets (AccountStep P profile) (fun _ _ step => NoopFromPrefix P step) none history acct →
        OnOneChain history acct ∧
        ∀ step ∈ history, ∀ chain, ¬ step.prevState.nullifierAccum <+: chain →
          ∀ final, acct = some final → ¬ final.nullifierAccum <+: chain) ∧
    ∀ acct step next, AccountStep P profile acct step next →
      Fork step.prevState.nullifierAccum step.init.nullifierAccum →
        ¬ step.prevState.nullifierAccum <+: step.newState.nullifierAccum := by
  constructor
  · intro history acct hmeets
    have hchain : OnOneChain history acct := by
      -- the invariant: every state of the history is a prefix of the last one
      refine hmeets.invariant
        (fun _ _ _ _ hchain hnoop hstep => onOneChain_snoc hsound hchain hnoop hstep) ?_
      constructor
      · intro step hstep
        cases hstep
      · intro step hstep
        cases hstep
    refine ⟨hchain, ?_⟩
    -- a final state on the chain would carry every earlier state there
    intro step hstep chain horphan final hfinal habs
    apply horphan
    obtain ⟨last, hlast, hextends⟩ := hchain.last step hstep
    rw [hfinal, Option.some.injEq] at hlast
    subst hlast
    exact ((hchain.steps step hstep).trans hextends).trans habs
  · -- the faulty no-op step: the new state extends the value read, which forks from the old one
    intro acct step next hstep hfork habs
    obtain ⟨hnew, hfin⟩ := newState_extends_init hsound hstep
    rw [hnew] at habs
    exact not_fork_of_prefix habs hfin hfork

/-- A chain whose only block, at height 3, publishes the sample key. -/
def orphanChain : Nav :=
  [{(sampleKey, ⟨zeroBytes 32⟩, locationBytes (3 * 2 ^ 24), ⟨zeroBytes 32⟩)}]

def openingStep (chain : Nav) (outputs : PaymentInitOutput (Finset CoinIdOnChain) Nav ×
    PaymentInitOutputFee Nav) (height : Nat) : PaymentStep (Finset CoinIdOnChain) Nav where
  prevState := newacct idealPrimitives (idealPayment [] [])
  prevCoins := []
  init := idealPayment [] []
  outputs := outputs
  fin := idealFinalize chain (locationBytes (height * 2 ^ 24))
  newState := idealState chain 0
  newCoins := []

/-- A step of the sample account from `prevChain` to the sample chain whose
    conditional value `conditional` is not on that chain. -/
def noopStep (prevChain conditional : Nav) (outputs : PaymentInitOutput (Finset CoinIdOnChain) Nav ×
    PaymentInitOutputFee Nav) : PaymentStep (Finset CoinIdOnChain) Nav where
  prevState := idealState prevChain 0
  prevCoins := []
  init := idealPayment sampleChain conditional
  outputs := outputs
  fin := idealFinalize sampleChain (locationBytes (2 ^ 24))
  newState := idealState sampleChain 0
  newCoins := []

theorem openingStep_accepted : ∃ outputs,
    AccountStep idealPrimitives .debug none (openingStep sampleChain outputs 1)
        (some (idealState sampleChain 0)) ∧
      AccountStep idealPrimitives .debug none (openingStep orphanChain outputs 3)
        (some (idealState orphanChain 0)) := by
  obtain ⟨outputs, hinit, hsample, horphan⟩ : ∃ outputs,
      paymentInitNewacct idealPrimitives .debug [] (idealPayment [] []) = .ok (some outputs) ∧
      paymentFinalize idealPrimitives outputs.1
        (idealFinalize sampleChain (locationBytes (1 * 2 ^ 24))) =
          some (idealState sampleChain 0, []) ∧
      paymentFinalize idealPrimitives outputs.1
        (idealFinalize orphanChain (locationBytes (3 * 2 ^ 24))) =
          some (idealState orphanChain 0, []) := ⟨_, rfl, rfl, rfl⟩
  exact ⟨outputs, .opened rfl hinit hsample, .opened rfl hinit horphan⟩

theorem noopStep_accepted (prevChain : Nav) : ∃ outputs,
    AccountStep idealPrimitives .debug (some (idealState prevChain 0))
      (noopStep prevChain orphanChain outputs) (some (idealState sampleChain 0)) := by
  obtain ⟨outputs, hinit, hfin⟩ : ∃ outputs,
      paymentInit idealPrimitives .debug (idealState prevChain 0) []
        (idealPayment sampleChain orphanChain) = .ok (some outputs) ∧
      paymentFinalize idealPrimitives outputs.1
        (idealFinalize sampleChain (locationBytes (2 ^ 24))) =
          some (idealState sampleChain 0, []) := ⟨_, rfl, rfl⟩
  have hstep : AccountStep idealPrimitives .debug
      (some (noopStep prevChain orphanChain outputs).prevState)
      (noopStep prevChain orphanChain outputs)
      (some (noopStep prevChain orphanChain outputs).newState) := .continued hinit hfin
  exact ⟨outputs, hstep⟩

/-- An account opened on the orphan chain is carried over to the sample chain by a
    no-op step. -/
theorem noop_leaves_chain :
    ∃ history acct, Run (AccountStep idealPrimitives .debug) none history acct ∧
      ∃ step ∈ history, ¬ step.prevState.nullifierAccum <+: step.newState.nullifierAccum := by
  obtain ⟨opened, -, hopened⟩ := openingStep_accepted
  obtain ⟨noop, hnoop⟩ := noopStep_accepted orphanChain
  refine ⟨_, _, Run.snoc (Run.snoc Run.start hopened) hnoop, noopStep orphanChain orphanChain noop,
    by simp, ?_⟩
  change ¬ orphanChain <+: sampleChain
  decide

theorem sampleAccount_stays_on_chain :
    ∃ history acct, Run (AccountStep idealPrimitives .debug) none history acct ∧
      history.length = 2 ∧ OnOneChain history acct := by
  obtain ⟨opened, hopened, -⟩ := openingStep_accepted
  obtain ⟨noop, hnoop⟩ := noopStep_accepted sampleChain
  have hopening : NoopFromPrefix idealPrimitives (openingStep sampleChain opened 1) := by
    intro _
    exact List.prefix_refl _
  have hstaying : NoopFromPrefix idealPrimitives (noopStep sampleChain orphanChain noop) := by
    intro _
    exact List.prefix_refl _
  have hmeets : Meets (AccountStep idealPrimitives .debug)
      (fun _ _ step => NoopFromPrefix idealPrimitives step) none
      [openingStep sampleChain opened 1, noopStep sampleChain orphanChain noop]
      (some (idealState sampleChain 0)) :=
    Meets.snoc (Meets.snoc Meets.start hopening hopened) hstaying hnoop
  obtain ⟨hstays, -⟩ := account_stays_on_chain idealPrimitives .debug
    idealPrimitives_isPrefixSound
  exact ⟨_, _, hmeets.run, rfl, (hstays _ _ hmeets).1⟩

/-! ### One outcome on one chain -/

structure SameTransaction {V : Type} (wLoc₁ wLoc₂ : PaymentInitLocalInput A V) : Prop where
  conditionalNav : wLoc₁.conditionalNav = wLoc₂.conditionalNav
  newCoins : wLoc₁.newCoins = wLoc₂.newCoins
  newNullifierPk : wLoc₁.newNullifierPk = wLoc₂.newNullifierPk
  fee : wLoc₁.fee = wLoc₂.fee

/-- A no-op input forks from the conditional value, an applied one extends it. -/
theorem not_noop_and_applied (hsound : IsPrefixSound P) (hdistinct : DistinctElementSound P)
    {prevState : AcctState A Nav} {prevCoins : List (Coin Nav)}
    {wNoop wApplied : PaymentInitLocalInput A Nav}
    {outputs : PaymentInitOutput A Nav × PaymentInitOutputFee Nav} {chain : Nav}
    (hconditional : wNoop.conditionalNav = wApplied.conditionalNav)
    (hinit : paymentInit P profile prevState prevCoins wApplied = .ok (some outputs))
    (hnoopChain : wNoop.nullifierAccum <+: chain)
    (happliedChain : wApplied.nullifierAccum <+: chain)
    (hnoop : takesNoopBranch P wNoop = true) : takesNoopBranch P wApplied = true := by
  by_contra hbranch
  rw [Bool.not_eq_true] at hbranch
  have hfork : Fork wNoop.conditionalNav wNoop.nullifierAccum := hdistinct _ _ _ hnoop
  have hrequired := requiredPrefixes_of_applied hsound hinit hbranch
  have hmem : wApplied.conditionalNav ∈ requiredPrefixes prevState prevCoins wApplied := by
    simp [requiredPrefixes]
  have hextends := (hrequired _ hmem).trans happliedChain
  rw [← hconditional] at hextends
  exact not_fork_of_prefix hextends hnoopChain hfork

theorem outputs_of_same_branch {V : Type} {P : Primitives A V} {prevState : AcctState A V}
    {prevCoins : List (Coin V)} {wLoc₁ wLoc₂ : PaymentInitLocalInput A V}
    {outputs₁ outputs₂ : PaymentInitOutput A V × PaymentInitOutputFee V}
    (hsame : SameTransaction wLoc₁ wLoc₂)
    (hinit₁ : paymentInit P profile prevState prevCoins wLoc₁ = .ok (some outputs₁))
    (hinit₂ : paymentInit P profile prevState prevCoins wLoc₂ = .ok (some outputs₂))
    (hbranch : takesNoopBranch P wLoc₁ = takesNoopBranch P wLoc₂) :
    outputs₁.1.acctStateEssence = outputs₂.1.acctStateEssence ∧
      outputs₁.1.coinEssences = outputs₂.1.coinEssences ∧ outputs₁.2.fee = outputs₂.2.fee := by
  obtain ⟨newBalance₁, hchecks₁, hout₁⟩ := paymentInit_eq_some_iff.mp hinit₁
  obtain ⟨newBalance₂, hchecks₂, hout₂⟩ := paymentInit_eq_some_iff.mp hinit₂
  obtain ⟨-, hcase₁⟩ := paymentInitOutputs_eq_some_iff.mp hout₁
  obtain ⟨-, hcase₂⟩ := paymentInitOutputs_eq_some_iff.mp hout₂
  unfold takesNoopBranch at hbranch
  rcases hcase₁ with ⟨hnoop₁, rfl⟩ | ⟨happlied₁, -, first₁, rest₁, hcoins₁, rfl⟩
  · rcases hcase₂ with ⟨hnoop₂, rfl⟩ | ⟨happlied₂, -⟩
    · simp [noopOutputs, hsame.newNullifierPk]
    · -- one takes the no-op branch and the other does not
      rw [hnoop₁, happlied₂] at hbranch
      cases hbranch
  · rcases hcase₂ with ⟨hnoop₂, -⟩ | ⟨happlied₂, -, first₂, rest₂, hcoins₂, rfl⟩
    · rw [happlied₁, hnoop₂] at hbranch
      cases hbranch
    · -- both apply: the checks fix the new balance, whatever value was read
      have hbalance : newBalance₁ = newBalance₂ := by
        have hbalance₁ := hchecks₁.balance
        have hbalance₂ := hchecks₂.balance
        rw [hsame.newCoins, hsame.fee] at hbalance₁
        exact UInt64.toNat_inj.mp (by omega)
      have hrest : rest₁ = rest₂ := by
        rw [hsame.newCoins, hcoins₂] at hcoins₁
        exact (List.cons.inj hcoins₁).2.symm
      simp [appliedOutputs, hbalance, hrest, hsame.newNullifierPk, hsame.fee]

/-- **One outcome on one chain.**  Two accepted inputs for the same transaction,
    finalized on one chain, take the same branch and yield the same state essence,
    the same coin essences and the same fee. -/
theorem outcomes_agree_on_chain (P : Primitives A Nav) (profile : Profile)
    (hsound : IsPrefixSound P) (hdistinct : DistinctElementSound P)
    (prevState : AcctState A Nav) (prevCoins : List (Coin Nav))
    (wLoc₁ wLoc₂ : PaymentInitLocalInput A Nav) (hsame : SameTransaction wLoc₁ wLoc₂)
    (outputs₁ outputs₂ : PaymentInitOutput A Nav × PaymentInitOutputFee Nav)
    (hinit₁ : paymentInit P profile prevState prevCoins wLoc₁ = .ok (some outputs₁))
    (hinit₂ : paymentInit P profile prevState prevCoins wLoc₂ = .ok (some outputs₂))
    (wFin₁ wFin₂ : PaymentFinalizeLocalInput Nav)
    (state₁ state₂ : AcctState A Nav) (coins₁ coins₂ : List (Coin Nav))
    (hfin₁ : paymentFinalize P outputs₁.1 wFin₁ = some (state₁, coins₁))
    (hfin₂ : paymentFinalize P outputs₂.1 wFin₂ = some (state₂, coins₂)) (chain : Nav)
    (hchain₁ : wFin₁.nullifierAccum <+: chain) (hchain₂ : wFin₂.nullifierAccum <+: chain) :
    takesNoopBranch P wLoc₁ = takesNoopBranch P wLoc₂ ∧ state₁.essence = state₂.essence ∧
      coins₁.map Coin.essence = coins₂.map Coin.essence ∧ outputs₁.2.fee = outputs₂.2.fee := by
  have honChain₁ := (finalize_extends hsound hinit₁ hfin₁).trans hchain₁
  have honChain₂ := (finalize_extends hsound hinit₂ hfin₂).trans hchain₂
  have hbranch : takesNoopBranch P wLoc₁ = takesNoopBranch P wLoc₂ := by
    rw [Bool.eq_iff_iff]
    -- one chain extends both values, so it decides the branch of both
    constructor
    · exact not_noop_and_applied hsound hdistinct hsame.conditionalNav hinit₂ honChain₁ honChain₂
    · exact not_noop_and_applied hsound hdistinct hsame.conditionalNav.symm hinit₁ honChain₂
        honChain₁
  obtain ⟨hessence, hcoins, hfee⟩ := outputs_of_same_branch hsame hinit₁ hinit₂ hbranch
  obtain ⟨-, hresult₁⟩ := paymentFinalize_eq_some_iff.mp hfin₁
  obtain ⟨-, hresult₂⟩ := paymentFinalize_eq_some_iff.mp hfin₂
  obtain ⟨rfl, rfl⟩ := Prod.mk.inj hresult₁
  obtain ⟨rfl, rfl⟩ := Prod.mk.inj hresult₂
  refine ⟨hbranch, hessence, ?_, hfee⟩
  simp [finalizedCoin, hcoins]

/-- A payment proved against the empty chain and against the chain of one block. -/
theorem samplePayment_outcomes_agree :
    ∃ outputs₁ outputs₂,
      paymentInit idealPrimitives .debug (idealState [] 0) [] (idealPayment [] []) =
          .ok (some outputs₁) ∧
        paymentInit idealPrimitives .debug (idealState [] 0) [] (idealPayment sampleChain []) =
          .ok (some outputs₂) ∧
        outputs₁.2.fee = outputs₂.2.fee := by
  obtain ⟨outputs₁, state₁, hinit₁, hfin₁⟩ : ∃ outputs state,
      paymentInit idealPrimitives .debug (idealState [] 0) [] (idealPayment [] []) =
          .ok (some outputs) ∧
        paymentFinalize idealPrimitives outputs.1
          (idealFinalize sampleChain (locationBytes (2 ^ 24))) = some (state, []) :=
    ⟨_, _, rfl, rfl⟩
  obtain ⟨outputs₂, state₂, hinit₂, hfin₂⟩ : ∃ outputs state,
      paymentInit idealPrimitives .debug (idealState [] 0) [] (idealPayment sampleChain []) =
          .ok (some outputs) ∧
        paymentFinalize idealPrimitives outputs.1
          (idealFinalize sampleChain (locationBytes (2 ^ 24))) = some (state, []) :=
    ⟨_, _, rfl, rfl⟩
  have hagree := outcomes_agree_on_chain idealPrimitives .debug idealPrimitives_isPrefixSound
    idealPrimitives_distinctElementSound _ _ (idealPayment [] []) (idealPayment sampleChain [])
    ⟨rfl, rfl, rfl, rfl⟩ outputs₁ outputs₂ hinit₁ hinit₂ _ _ _ _ _ _ hfin₁ hfin₂ sampleChain
    (List.prefix_refl _) (List.prefix_refl _)
  exact ⟨outputs₁, outputs₂, hinit₁, hinit₂, hagree.2.2.2⟩

end PartyMix
