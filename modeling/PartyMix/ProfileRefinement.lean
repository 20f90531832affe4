import PartyMix.CoinIdentity
import PartyMix.Lib.OverflowRefinement
import PartyMix.SolvencyCheck

/-!
# The two builds

The plain operators of Rust panic on overflow in a debug build and wrap in a release
build.  A debug build runs as the release build does, up to that panic, and the runs it
completes are the release runs in which no sum, block location or accumulator depth
overflows.
-/

namespace PartyMix

open FixedBytes MachineWord ProofGraph Transition

variable {A V M : Type} {P : Primitives A V} {B : PcdBackend A V} {mgr : ToSAccM M V}

/-! ### One call -/

section Calls

theorem runsAs_availableFunds (prevState : AcctState A V) (prevCoins : List (Coin V)) :
    RunsAs .overflow (availableFunds .debug prevState prevCoins)
      (availableFunds .release prevState prevCoins) :=
  (runsAs_sumU64 _).bind fun _ => runsAs_addU64 _ _

theorem runsAs_paymentInit (P : Primitives A V) (prevState : AcctState A V)
    (prevCoins : List (Coin V)) (wLoc : PaymentInitLocalInput A V) :
    RunsAs .overflow (paymentInit P .debug prevState prevCoins wLoc)
      (paymentInit P .release prevState prevCoins wLoc) := by
  unfold paymentInit
  split
  · exact RunsAs.refl _
  split
  · exact RunsAs.refl _
  · exact (runsAs_availableFunds prevState prevCoins).bind fun _ => RunsAs.refl _

theorem runsAs_paymentInitFrom (P : Primitives A V) (acctState : Option (AcctState A V))
    (prevCoins : List (Coin V)) (wLoc : PaymentInitLocalInput A V) :
    RunsAs .overflow (paymentInitFrom P .debug acctState prevCoins wLoc)
      (paymentInitFrom P .release acctState prevCoins wLoc) := by
  cases acctState with
  | some acctState => exact runsAs_paymentInit P acctState prevCoins wLoc
  | none => exact runsAs_paymentInit P (newacct P wLoc) prevCoins wLoc

variable [DecidableEq A] [DecidableEq V]

theorem runsAs_compliancePredicatePayInit (P : Primitives A V) (zOut : EdgeLabel A V)
    (wLoc : LocalInput A V) (acctState : Option (AcctState A V)) (zIn : List (EdgeLabel A V)) :
    RunsAs .overflow (compliancePredicatePayInit P .debug zOut wLoc acctState zIn)
      (compliancePredicatePayInit P .release zOut wLoc acctState zIn) := by
  unfold compliancePredicatePayInit
  split
  · split
    · exact RunsAs.refl _
    · exact (runsAs_paymentInitFrom P _ _ _).bind fun _ => RunsAs.refl _
  · exact RunsAs.refl _

theorem runsAs_compliancePredicate (P : Primitives A V) (zOut : EdgeLabel A V)
    (wLoc : LocalInput A V) (zIn : List (EdgeLabel A V)) :
    RunsAs .overflow (compliancePredicate P .debug zOut wLoc zIn)
      (compliancePredicate P .release zOut wLoc zIn) := by
  unfold compliancePredicate
  split
  · exact RunsAs.refl _
  · exact runsAs_compliancePredicatePayInit P zOut wLoc _ _
  · exact runsAs_compliancePredicatePayInit P zOut wLoc _ _
  · exact RunsAs.refl _
  · exact RunsAs.refl _

omit [DecidableEq A] [DecidableEq V] in
theorem runsAs_checkSolvency (userOrder : IterOrder (Bytes 32) LiabilityEntry)
    (accountOrder : IterOrder Uuid (PoolAccount A V)) (pool : PoolManager)
    (wallet : WalletState A V) :
    RunsAs .overflow (pool.checkSolvency .debug userOrder accountOrder wallet)
      (pool.checkSolvency .release userOrder accountOrder wallet) := by
  have hvalue : RunsAs .overflow (wallet.totalUnspentPoolValue .debug accountOrder)
      (wallet.totalUnspentPoolValue .release accountOrder) :=
    (runsAs_sumU64 _).bind fun _ => (runsAs_sumU64 _).bind fun _ => runsAs_addU64 _ _
  exact (runsAs_sumU64 _).bind fun _ => hvalue.bind fun _ => RunsAs.refl _

omit [DecidableEq A] [DecidableEq V] in
theorem runsAs_scanAggregate (P : Primitives A V) (msg : Message) (scan : BlockScan)
    (aggregate : AggregateNullifier) :
    RunsAs .overflow (scanAggregate P .debug msg scan aggregate)
      (scanAggregate P .release msg scan aggregate) := by
  have hkey (scan : BlockScan) (occurrence : PublicKey × Nat) :
      RunsAs .overflow (scanKey P .debug aggregate scan occurrence)
        (scanKey P .release aggregate scan occurrence) := by
    obtain ⟨pk, i⟩ := occurrence
    simp only [scanKey]
    split
    · exact RunsAs.refl _
    · exact (runsAs_addU64 _ _).bind fun _ => RunsAs.refl _
  unfold scanAggregate
  split
  · exact RunsAs.refl _
  · exact RunsAs.foldlM hkey _ _

/-- The accumulator manager runs alike in the two builds, up to an overflow. -/
def AppendsAlike (mgr : ToSAccM M V) : Prop :=
  ∀ state set, RunsAs .overflow (mgr.appendSet .debug state set)
    (mgr.appendSet .release state set)

theorem source_appendsAlike (hash : List UInt8 → Bytes 32) :
    AppendsAlike (ToSAccM.source hash) :=
  fun _ _ => (runsAs_addU32 _ _).bind fun _ => RunsAs.refl _

theorem ideal_appendsAlike : AppendsAlike ToSAccM.ideal := fun _ _ => RunsAs.refl _

omit [DecidableEq A] in
theorem runsAs_processBlock (P : Primitives A V) (hmgr : AppendsAlike mgr) (node : MixerNode B M)
    (blockHeight : UInt64) (aggregates : List AggregateNullifier) :
    RunsAs .overflow (processBlock P mgr .debug node blockHeight aggregates)
      (processBlock P mgr .release node blockHeight aggregates) :=
  (RunsAs.refl _).bind fun msg => (runsAs_mulU64 _ _).bind fun _ =>
    (RunsAs.foldlM (runsAs_scanAggregate P msg) _ _).bind fun _ =>
      (hmgr _ _).bind fun _ => RunsAs.refl _

end Calls

/-- **One call.**  What a debug build answers, and every other panic of it, is what a
    release build does. -/
theorem builds_agree_up_to_overflow [DecidableEq A] [DecidableEq V] (P : Primitives A V)
    (hash : List UInt8 → Bytes 32) :
    (∀ (prevState : AcctState A V) prevCoins wLoc,
      RunsAs .overflow (paymentInit P .debug prevState prevCoins wLoc)
        (paymentInit P .release prevState prevCoins wLoc)) ∧
    (∀ (zOut : EdgeLabel A V) wLoc zIn,
      RunsAs .overflow (compliancePredicate P .debug zOut wLoc zIn)
        (compliancePredicate P .release zOut wLoc zIn)) ∧
    (∀ userOrder accountOrder (pool : PoolManager) (wallet : WalletState A V),
      RunsAs .overflow (pool.checkSolvency .debug userOrder accountOrder wallet)
        (pool.checkSolvency .release userOrder accountOrder wallet)) ∧
    ∀ (PSource : Primitives A ToSAccValue) (BSource : PcdBackend A ToSAccValue)
      (node : MixerNode BSource ToSAccMState) blockHeight aggregates,
      RunsAs .overflow
        (processBlock PSource (ToSAccM.source hash) .debug node blockHeight aggregates)
        (processBlock PSource (ToSAccM.source hash) .release node blockHeight aggregates) := by
  refine ⟨runsAs_paymentInit P, runsAs_compliancePredicate P, runsAs_checkSolvency, ?_⟩
  intro PSource BSource node
  exact runsAs_processBlock PSource (source_appendsAlike hash) node

/-! ### Graphs and account histories -/

/-- The funds of a payment fit a word. -/
def FundsFit (prevState : AcctState A V) (prevCoins : List (Coin V)) : Prop :=
  prevState.essence.balance.toNat + coinTotal prevCoins < 2 ^ 64

theorem paymentInit_debug_iff {prevState : AcctState A V} {prevCoins : List (Coin V)}
    {wLoc : PaymentInitLocalInput A V}
    {outputs : PaymentInitOutput A V × PaymentInitOutputFee V} :
    paymentInit P .debug prevState prevCoins wLoc = .ok (some outputs) ↔
      paymentInit P .release prevState prevCoins wLoc = .ok (some outputs) ∧
        FundsFit prevState prevCoins := by
  constructor
  · intro hdebug
    obtain ⟨newBalance, hchecks, -⟩ := paymentInit_eq_some_iff.mp hdebug
    exact ⟨(runsAs_paymentInit P _ _ _).ok hdebug, hchecks.exact rfl⟩
  · rintro ⟨hrelease, hfits⟩
    obtain ⟨newBalance, hchecks, hout⟩ := paymentInit_eq_some_iff.mp hrelease
    exact paymentInit_eq_some_iff.mpr ⟨newBalance, { hchecks with exact := fun _ => hfits }, hout⟩

/-- Where a vertex is a payment, its funds fit. -/
def VertexFits (P : Primitives A V) (v : PaymentVertex A V) : Prop :=
  ∀ prevState prevCoins wLoc, Pays P v prevState prevCoins wLoc → FundsFit prevState prevCoins

theorem complies_debug_iff [DecidableEq A] [DecidableEq V] {v : PaymentVertex A V} :
    Complies P .debug v.out v.input v.ins ↔
      Complies P .release v.out v.input v.ins ∧ VertexFits P v := by
  obtain ⟨zOut, wLoc, zIn⟩ := v
  constructor
  · intro hdebug
    refine ⟨(runsAs_compliancePredicate P _ _ _).ok hdebug, ?_⟩
    intro prevState prevCoins init hpays
    cases protocolEdge_of_accepts hdebug with
    | payment hinit _ =>
      obtain ⟨rfl, rfl, -⟩ := hpays.unique (@Pays.account _ _ P zOut _ _ _) rfl rfl
      exact (paymentInit_debug_iff.mp hinit).2
    | opening _ hinit _ =>
      obtain ⟨rfl, rfl, -⟩ := hpays.unique (@Pays.newacct _ _ P zOut _ _) rfl rfl
      exact (paymentInit_debug_iff.mp hinit).2
    | finalization => cases hpays
    | feeFinalization => cases hpays
  · rintro ⟨hrelease, hfits⟩
    apply accepts_of_protocolEdge
    cases protocolEdge_of_accepts hrelease with
    | payment hinit hout =>
      exact .payment (paymentInit_debug_iff.mpr ⟨hinit, hfits _ _ _ .account⟩) hout
    | opening hne hinit hout =>
      exact .opening hne (paymentInit_debug_iff.mpr ⟨hinit, hfits _ _ _ .newacct⟩) hout
    | finalization hfin hout => exact .finalization hfin hout
    | feeFinalization hfin => exact .feeFinalization hfin

theorem accountStep_debug_iff {acct next : Option (AcctState A V)} {step : PaymentStep A V} :
    AccountStep P .debug acct step next ↔
      AccountStep P .release acct step next ∧ FundsFit step.prevState step.prevCoins := by
  constructor
  · intro hdebug
    cases hdebug with
    | opened hstart hinit hfin =>
      obtain ⟨hrelease, hfits⟩ := paymentInit_debug_iff.mp hinit
      exact ⟨.opened hstart hrelease hfin, hstart ▸ hfits⟩
    | continued hinit hfin =>
      obtain ⟨hrelease, hfits⟩ := paymentInit_debug_iff.mp hinit
      exact ⟨.continued hrelease hfin, hfits⟩
  · rintro ⟨hrelease, hfits⟩
    cases hrelease with
    | opened hstart hinit hfin =>
      rw [hstart] at hfits
      exact .opened hstart (paymentInit_debug_iff.mpr ⟨hinit, hfits⟩) hfin
    | continued hinit hfin => exact .continued (paymentInit_debug_iff.mpr ⟨hinit, hfits⟩) hfin

/-- **Graphs and histories.**  The graphs that comply in a debug build, and the account
    histories accepted there, are those of a release build in which the funds of every
    payment fit a word. -/
theorem debug_payments_iff [DecidableEq A] [DecidableEq V] (P : Primitives A V) :
    (∀ issued graph known, PaymentGraph P .debug issued graph known ↔
      PaymentGraph P .release issued graph known ∧ ∀ v ∈ graph, VertexFits P v) ∧
    ∀ history acct, Run (AccountStep P .debug) none history acct ↔
      Run (AccountStep P .release) none history acct ∧
        ∀ step ∈ history, FundsFit step.prevState step.prevCoins := by
  constructor
  · intro issued graph known
    rw [← meets_label_iff]
    apply run_iff_meets
    intro known v next
    simp only [Extends, complies_debug_iff]
    tauto
  · intro history acct
    rw [← meets_label_iff]
    apply run_iff_meets
    intro acct step next
    exact accountStep_debug_iff

/-! ### Nodes -/

/-- Neither the block's locations nor the accumulator overflow. -/
def NoOverflow (P : Primitives A V) (mgr : ToSAccM M V) (node : MixerNode B M) :
    NodeEvent V → Prop
  | .connected block _ => ∀ msg, P.fromDigestSlice stateUpdateText = some msg →
      block.1.toNat * 2 ^ 24 +
          (newElements P msg node.wallet.nullifierKv block.1 block.2).length < 2 ^ 64 ∧
        mgr.appendSet .debug node.nullifierAccum
          (newElements P msg node.wallet.nullifierKv block.1 block.2) ≠ .error .overflow
  | .disconnected _ => True

theorem nodeStep_debug_iff [DecidableEq V] (hmgr : AppendsAlike mgr) {node next : MixerNode B M}
    {event : NodeEvent V} :
    NodeStep P mgr .debug node event next ↔
      NodeStep P mgr .release node event next ∧ NoOverflow P mgr node event := by
  cases event with
  | disconnected blocks => simp only [NodeStep, NoOverflow, and_true]
  | connected block nav =>
    simp only [NodeStep, BlockStep, processBlock_eq_ok_iff, NoOverflow]
    constructor
    · rintro ⟨⟨msg, accum, hmsg, hfits, happend, hnext⟩, hnav⟩
      refine ⟨⟨⟨msg, accum, hmsg, nofun, (hmgr _ _).ok happend, hnext⟩, hnav⟩, ?_⟩
      intro found hfound
      obtain rfl : msg = found := Option.some.inj (hmsg.symm.trans hfound)
      exact ⟨hfits trivial, ((hmgr _ _).ok_iff.mp happend).2⟩
    · rintro ⟨⟨⟨msg, accum, hmsg, -, happend, hnext⟩, hnav⟩, hno⟩
      obtain ⟨hfits, happends⟩ := hno msg hmsg
      exact ⟨⟨msg, accum, hmsg, fun _ => hfits, (hmgr _ _).ok_iff.mpr ⟨happend, happends⟩, hnext⟩,
        hnav⟩

/-- **Nodes.**  The runs a debug node completes are the runs of a release node in which
    no block location and no accumulator depth overflows. -/
theorem debug_node_runs_iff [DecidableEq V] (P : Primitives A V) (mgr : ToSAccM M V)
    (hmgr : AppendsAlike mgr) (start node : MixerNode B M) (events : List (NodeEvent V)) :
    Run (NodeStep P mgr .debug) start events node ↔
      Meets (NodeStep P mgr .release) (fun _ node event => NoOverflow P mgr node event) start events
        node := by
  apply run_iff_meets
  intro node event next
  exact nodeStep_debug_iff hmgr

/-- A release node connects a block at height 2^40, and a debug node does not. -/
theorem tallBlock_release_only :
    ∃ node, Run (NodeStep idealPrimitives .ideal .release) sampleNode
        [.connected (2 ^ 40, []) [∅]] node ∧
      ¬ Run (NodeStep idealPrimitives .ideal .debug) sampleNode
        [.connected (2 ^ 40, []) [∅]] node := by
  obtain ⟨node, hstep⟩ : ∃ node, NodeStep idealPrimitives .ideal .release sampleNode
      (.connected (2 ^ 40, []) [∅]) node :=
    ⟨_, processBlock_eq_ok_iff.mpr ⟨_, _, rfl, nofun, rfl, rfl⟩, rfl⟩
  refine ⟨node, Run.snoc Run.start hstep, ?_⟩
  intro hdebug
  have hmeets := (debug_node_runs_iff idealPrimitives .ideal ideal_appendsAlike _ _ _).mp hdebug
  obtain ⟨_, -, hgood, -⟩ := @Meets.last _ _ _ _ _ _ [] _ hmeets
  obtain ⟨hfits, -⟩ := hgood ⟨zeroBytes 32⟩ rfl
  have htall : (2 ^ 40 : UInt64).toNat * 2 ^ 24 = 2 ^ 64 := by decide
  rw [htall] at hfits
  omega

end PartyMix
