import PartyMix.PaymentAcceptance

/-!
# The compliance predicate

`compliance_predicate` of `shielded_csv/protocol.rs`: which output label is allowed
on an edge, given the local input and the input labels.  `ProtocolEdge` lists the
edges of the protocol; the predicate accepts these and no others.
-/

namespace PartyMix

open MachineWord

variable {A V : Type}

/-! ### The predicate -/

def issuance (_wLoc : IssuanceProof) : Option (Coin V) := none

/-- One step of the fold over the input labels: a label that is not a coin stops it. -/
def pushPrevCoin (acc : List (Coin V)) : EdgeLabel A V → Option (List (Coin V))
  | .coin coin => some (acc ++ [coin])
  | _ => none

def prevCoinsOf (zIn : List (EdgeLabel A V)) : Option (List (Coin V)) :=
  zIn.foldlM pushPrevCoin []

/-- `payment_init` from the account state, or from a new account when there is none. -/
def paymentInitFrom (P : Primitives A V) (profile : Profile) (acctState : Option (AcctState A V))
    (prevCoins : List (Coin V)) (wLoc : PaymentInitLocalInput A V) :
    Exec (Option (PaymentInitOutput A V × PaymentInitOutputFee V)) :=
  match acctState with
  | some acctState => paymentInit P profile acctState prevCoins wLoc
  | none => paymentInitNewacct P profile prevCoins wLoc

section Predicate

variable [DecidableEq A] [DecidableEq V]

def isPaymentInitOutput (output : PaymentInitOutput A V × PaymentInitOutputFee V) :
    EdgeLabel A V → Bool
  | .paymentInitOutput zOut => decide (output.1 = zOut)
  | .paymentInitOutputFee zOut => decide (output.2 = zOut)
  | _ => false

def compliancePredicatePayInit (P : Primitives A V) (profile : Profile) (zOut : EdgeLabel A V)
    (wLoc : LocalInput A V) (acctState : Option (AcctState A V)) (zIn : List (EdgeLabel A V)) :
    Exec Bool :=
  match wLoc with
  | .paymentInit wLoc =>
    match prevCoinsOf zIn with
    | none => .ok false
    | some prevCoins => do
      let output ← paymentInitFrom P profile acctState prevCoins wLoc
      match output with
      | none => .ok false
      | some output => .ok (isPaymentInitOutput output zOut)
  | _ => .ok false

def compliancePredicatePayFinalize (P : Primitives A V) (zOut : EdgeLabel A V)
    (wLoc : LocalInput A V) (zIn : List (EdgeLabel A V)) : Bool :=
  match zIn with
  | [label] =>
    match wLoc with
    | .paymentFinalize wLoc =>
      match label with
      | .paymentInitOutput output =>
        match paymentFinalize P output wLoc with
        | none => false
        | some (acctState, coins) =>
          decide (zOut = .acctState acctState) || coins.any fun coin => decide (zOut = .coin coin)
      | .paymentInitOutputFee output =>
        match paymentFinalizeFee P output wLoc with
        | none => false
        | some coin => decide (EdgeLabel.coin coin = zOut)
      | _ => false
    | _ => false
  | _ => false

def compliancePredicate (P : Primitives A V) (profile : Profile) (zOut : EdgeLabel A V)
    (wLoc : LocalInput A V) (zIn : List (EdgeLabel A V)) : Exec Bool :=
  match zIn with
  | [] =>
    match wLoc with
    | .issuance wLoc =>
      match issuance wLoc with
      | some coin => .ok (decide (zOut = .coin coin))
      | none => .ok false
    | _ => .ok false
  | .acctState acctState :: rest =>
    compliancePredicatePayInit P profile zOut wLoc (some acctState) rest
  | .coin coin :: rest =>
    compliancePredicatePayInit P profile zOut wLoc none (.coin coin :: rest)
  | .paymentInitOutput output :: rest =>
    .ok (compliancePredicatePayFinalize P zOut wLoc (.paymentInitOutput output :: rest))
  | .paymentInitOutputFee output :: rest =>
    .ok (compliancePredicatePayFinalize P zOut wLoc (.paymentInitOutputFee output :: rest))

end Predicate

/-! ### The edges of the protocol -/

/-- The edges of the protocol: a payment from an account and coins, a payment that
    opens an account, and the two finalizations. -/
inductive ProtocolEdge (P : Primitives A V) (profile : Profile) :
    EdgeLabel A V → LocalInput A V → List (EdgeLabel A V) → Prop
  | payment {zOut : EdgeLabel A V} {acctState : AcctState A V} {prevCoins : List (Coin V)}
      {wLoc : PaymentInitLocalInput A V} {output : PaymentInitOutput A V}
      {outputFee : PaymentInitOutputFee V} :
      paymentInit P profile acctState prevCoins wLoc = .ok (some (output, outputFee)) →
      zOut = .paymentInitOutput output ∨ zOut = .paymentInitOutputFee outputFee →
        ProtocolEdge P profile zOut (.paymentInit wLoc)
          (.acctState acctState :: prevCoins.map .coin)
  | opening {zOut : EdgeLabel A V} {prevCoins : List (Coin V)}
      {wLoc : PaymentInitLocalInput A V} {output : PaymentInitOutput A V}
      {outputFee : PaymentInitOutputFee V} :
      prevCoins ≠ [] →
      paymentInitNewacct P profile prevCoins wLoc = .ok (some (output, outputFee)) →
      zOut = .paymentInitOutput output ∨ zOut = .paymentInitOutputFee outputFee →
        ProtocolEdge P profile zOut (.paymentInit wLoc) (prevCoins.map .coin)
  | finalization {zOut : EdgeLabel A V} {output : PaymentInitOutput A V}
      {wLoc : PaymentFinalizeLocalInput V} {acctState : AcctState A V} {coins : List (Coin V)} :
      paymentFinalize P output wLoc = some (acctState, coins) →
      zOut = .acctState acctState ∨ (∃ coin ∈ coins, zOut = .coin coin) →
        ProtocolEdge P profile zOut (.paymentFinalize wLoc) [.paymentInitOutput output]
  | feeFinalization {output : PaymentInitOutputFee V} {wLoc : PaymentFinalizeLocalInput V}
      {coin : Coin V} :
      paymentFinalizeFee P output wLoc = some coin →
        ProtocolEdge P profile (.coin coin) (.paymentFinalize wLoc) [.paymentInitOutputFee output]

/-! ### One lemma for each dispatching function -/

theorem foldlM_pushPrevCoin {zIn : List (EdgeLabel A V)} {acc prevCoins : List (Coin V)} :
    zIn.foldlM pushPrevCoin acc = some prevCoins ↔
      ∃ coins, prevCoins = acc ++ coins ∧ zIn = coins.map .coin := by
  induction zIn generalizing acc with
  | nil =>
    rw [List.foldlM_nil]
    constructor
    · intro h
      obtain rfl := Option.some.inj h
      exact ⟨[], (List.append_nil _).symm, rfl⟩
    · rintro ⟨coins, rfl, hcoins⟩
      rw [List.map_eq_nil_iff.mp hcoins.symm, List.append_nil]
      rfl
  | cons label rest ih =>
    rw [List.foldlM_cons, Option.bind_eq_bind, Option.bind_eq_some_iff]
    cases label with
    | coin coin =>
      simp only [pushPrevCoin, Option.some.injEq, exists_eq_left', ih, List.append_assoc]
      constructor
      · rintro ⟨coins, rfl, rfl⟩
        exact ⟨coin :: coins, rfl, rfl⟩
      · rintro ⟨coins, rfl, hcoins⟩
        cases coins with
        | nil => cases hcoins
        | cons first tail =>
          rw [List.map_cons, List.cons.injEq, EdgeLabel.coin.injEq] at hcoins
          obtain ⟨rfl, rfl⟩ := hcoins
          exact ⟨tail, rfl, rfl⟩
    | acctState _ | paymentInitOutput _ | paymentInitOutputFee _ =>
      -- any other label ends the loop with a rejection
      constructor
      · rintro ⟨next, habs, -⟩
        cases habs
      · rintro ⟨coins, -, hcoins⟩
        cases coins <;> cases hcoins

theorem prevCoinsOf_eq_some {zIn : List (EdgeLabel A V)} {prevCoins : List (Coin V)} :
    prevCoinsOf zIn = some prevCoins ↔ zIn = prevCoins.map .coin := by
  rw [prevCoinsOf, foldlM_pushPrevCoin]
  simp

theorem prevCoinsOf_eq_none {zIn : List (EdgeLabel A V)} {label : EdgeLabel A V}
    (hmem : label ∈ zIn) (hcoin : ∀ coin, label ≠ .coin coin) : prevCoinsOf zIn = none := by
  rw [Option.eq_none_iff_forall_ne_some]
  intro prevCoins habs
  rw [prevCoinsOf_eq_some.mp habs] at hmem
  obtain ⟨coin, -, rfl⟩ := List.mem_map.mp hmem
  exact hcoin coin rfl

section Dispatch

variable [DecidableEq A] [DecidableEq V]

theorem isPaymentInitOutput_iff {output : PaymentInitOutput A V × PaymentInitOutputFee V}
    {zOut : EdgeLabel A V} :
    isPaymentInitOutput output zOut = true ↔
      zOut = .paymentInitOutput output.1 ∨ zOut = .paymentInitOutputFee output.2 := by
  cases zOut <;> simp [isPaymentInitOutput, eq_comm]

theorem compliancePredicatePayInit_accepts_iff {P : Primitives A V} {profile : Profile}
    {zOut : EdgeLabel A V} {wLoc : LocalInput A V} {acctState : Option (AcctState A V)}
    {zIn : List (EdgeLabel A V)} :
    compliancePredicatePayInit P profile zOut wLoc acctState zIn = .ok true ↔
      ∃ payment prevCoins output, wLoc = .paymentInit payment ∧ zIn = prevCoins.map .coin ∧
        paymentInitFrom P profile acctState prevCoins payment = .ok (some output) ∧
        (zOut = .paymentInitOutput output.1 ∨ zOut = .paymentInitOutputFee output.2) := by
  cases wLoc with
  -- the local input is for another step
  | issuance _ | paymentFinalize _ => simp [compliancePredicatePayInit]
  | paymentInit payment =>
    simp only [compliancePredicatePayInit, LocalInput.paymentInit.injEq]
    constructor
    · intro h
      split at h
      · cases h
      next prevCoins hprev =>
      obtain ⟨output, hinit, h⟩ := bind_eq_ok.mp h
      cases output with
      | none => cases h
      | some output =>
        rw [Except.ok.injEq] at h
        exact ⟨payment, prevCoins, output, rfl, prevCoinsOf_eq_some.mp hprev, hinit,
          isPaymentInitOutput_iff.mp h⟩
    · rintro ⟨_, prevCoins, output, rfl, hzIn, hinit, hout⟩
      rw [prevCoinsOf_eq_some.mpr hzIn]
      simp only [hinit, ok_bind]
      rw [isPaymentInitOutput_iff.mpr hout]

theorem compliancePredicatePayInit_rejects {P : Primitives A V} {profile : Profile}
    {zOut : EdgeLabel A V} {wLoc : LocalInput A V} {acctState : Option (AcctState A V)}
    {zIn : List (EdgeLabel A V)} {label : EdgeLabel A V} (hmem : label ∈ zIn)
    (hcoin : ∀ coin, label ≠ .coin coin) :
    compliancePredicatePayInit P profile zOut wLoc acctState zIn = .ok false := by
  cases wLoc with
  | issuance _ | paymentFinalize _ => rfl
  | paymentInit payment => simp only [compliancePredicatePayInit, prevCoinsOf_eq_none hmem hcoin]

theorem compliancePredicatePayFinalize_accepts_iff {P : Primitives A V}
    {zOut : EdgeLabel A V} {wLoc : LocalInput A V} {label : EdgeLabel A V} :
    compliancePredicatePayFinalize P zOut wLoc [label] = true ↔
      (∃ fin output acctState coins, wLoc = .paymentFinalize fin ∧
        label = .paymentInitOutput output ∧ paymentFinalize P output fin = some (acctState, coins) ∧
        (zOut = .acctState acctState ∨ ∃ coin ∈ coins, zOut = .coin coin)) ∨
      ∃ fin output coin, wLoc = .paymentFinalize fin ∧ label = .paymentInitOutputFee output ∧
        paymentFinalizeFee P output fin = some coin ∧ zOut = .coin coin := by
  cases wLoc with
  | issuance _ | paymentInit _ => simp [compliancePredicatePayFinalize]
  | paymentFinalize fin =>
    cases label with
    | acctState _ | coin _ => simp [compliancePredicatePayFinalize]
    | paymentInitOutput output =>
      cases hfin : paymentFinalize P output fin with
      | none => simp [compliancePredicatePayFinalize, hfin]
      | some result =>
        obtain ⟨acctState, coins⟩ := result
        simp [compliancePredicatePayFinalize, hfin]
    | paymentInitOutputFee output =>
      cases hfin : paymentFinalizeFee P output fin with
      | none => simp [compliancePredicatePayFinalize, hfin]
      | some coin => simp [compliancePredicatePayFinalize, hfin, eq_comm]

theorem compliancePredicatePayFinalize_rejects {P : Primitives A V} {zOut : EdgeLabel A V}
    {wLoc : LocalInput A V} {first label : EdgeLabel A V} {rest : List (EdgeLabel A V)} :
    compliancePredicatePayFinalize P zOut wLoc (first :: label :: rest) = false := rfl

end Dispatch

/-! ### The predicate accepts the edges -/

/-- Input lists that no edge has: the empty one, one with a label other than a coin
    after the first position, and the output of a payment with further labels. -/
inductive MalformedInputs : List (EdgeLabel A V) → Prop
  | empty : MalformedInputs []
  | mixed {first label : EdgeLabel A V} {rest : List (EdgeLabel A V)} :
      label ∈ rest → (∀ coin, label ≠ .coin coin) → MalformedInputs (first :: rest)
  | output {output : PaymentInitOutput A V} {rest : List (EdgeLabel A V)} :
      rest ≠ [] → MalformedInputs (.paymentInitOutput output :: rest)
  | outputFee {output : PaymentInitOutputFee V} {rest : List (EdgeLabel A V)} :
      rest ≠ [] → MalformedInputs (.paymentInitOutputFee output :: rest)

section Accepts

variable [DecidableEq A] [DecidableEq V]

theorem protocolEdge_of_accepts {P : Primitives A V} {profile : Profile} {zOut : EdgeLabel A V}
    {wLoc : LocalInput A V} {zIn : List (EdgeLabel A V)}
    (h : compliancePredicate P profile zOut wLoc zIn = .ok true) :
    ProtocolEdge P profile zOut wLoc zIn := by
  cases zIn with
  -- no inputs: this is issuance, which accepts nothing
  | nil => cases wLoc <;> cases h
  | cons label rest =>
    cases label with
    | acctState acctState =>
      obtain ⟨payment, prevCoins, output, rfl, rfl, hinit, hout⟩ :=
        compliancePredicatePayInit_accepts_iff.mp h
      exact .payment hinit hout
    | coin coin =>
      -- a coin first: the payment opens an account
      obtain ⟨payment, prevCoins, output, rfl, hzIn, hinit, hout⟩ :=
        compliancePredicatePayInit_accepts_iff.mp h
      rw [hzIn]
      have hne : prevCoins ≠ [] := by
        rintro rfl
        cases hzIn
      exact .opening hne hinit hout
    | paymentInitOutput output | paymentInitOutputFee output =>
      -- an output is finalized alone
      have hfin := Except.ok.inj h
      cases rest with
      | cons second tail =>
        rw [compliancePredicatePayFinalize_rejects] at hfin
        cases hfin
      | nil =>
        rcases compliancePredicatePayFinalize_accepts_iff.mp hfin with
          ⟨fin, output, acctState, coins, rfl, hlabel, hcall, hout⟩ |
          ⟨fin, output, coin, rfl, hlabel, hcall, rfl⟩
        · rw [hlabel]
          exact .finalization hcall hout
        · rw [hlabel]
          exact .feeFinalization hcall

theorem accepts_of_protocolEdge {P : Primitives A V} {profile : Profile} {zOut : EdgeLabel A V}
    {wLoc : LocalInput A V} {zIn : List (EdgeLabel A V)}
    (h : ProtocolEdge P profile zOut wLoc zIn) :
    compliancePredicate P profile zOut wLoc zIn = .ok true := by
  cases h with
  | payment hinit hout =>
    rw [compliancePredicate]
    exact compliancePredicatePayInit_accepts_iff.mpr ⟨_, _, _, rfl, rfl, hinit, hout⟩
  | @opening _ prevCoins _ _ _ hne hinit hout =>
    obtain ⟨first, rest, rfl⟩ := List.exists_cons_of_ne_nil hne
    rw [List.map_cons, compliancePredicate]
    exact compliancePredicatePayInit_accepts_iff.mpr ⟨_, _, _, rfl, rfl, hinit, hout⟩
  | finalization hfin hout =>
    apply congrArg Except.ok
    apply compliancePredicatePayFinalize_accepts_iff.mpr
    exact .inl ⟨_, _, _, _, rfl, rfl, hfin, hout⟩
  | feeFinalization hfin =>
    apply congrArg Except.ok
    apply compliancePredicatePayFinalize_accepts_iff.mpr
    exact .inr ⟨_, _, _, rfl, rfl, hfin, rfl⟩

theorem rejects_of_malformedInputs {P : Primitives A V} {profile : Profile}
    {zOut : EdgeLabel A V} {wLoc : LocalInput A V} {zIn : List (EdgeLabel A V)}
    (h : MalformedInputs zIn) : compliancePredicate P profile zOut wLoc zIn = .ok false := by
  cases h with
  | empty => cases wLoc <;> rfl
  | @mixed first label rest hmem hcoin =>
    cases first with
    | acctState _ => exact compliancePredicatePayInit_rejects hmem hcoin
    | coin _ => exact compliancePredicatePayInit_rejects (List.mem_cons_of_mem _ hmem) hcoin
    | paymentInitOutput _ | paymentInitOutputFee _ =>
      obtain ⟨second, tail, rfl⟩ := List.exists_cons_of_ne_nil (List.ne_nil_of_mem hmem)
      exact congrArg Except.ok compliancePredicatePayFinalize_rejects
  | output hne | outputFee hne =>
    obtain ⟨second, tail, rfl⟩ := List.exists_cons_of_ne_nil hne
    exact congrArg Except.ok compliancePredicatePayFinalize_rejects

/-- **Compliance.**  The predicate returns true exactly on the edges of the protocol,
    and it returns false, without a panic, on every malformed list of inputs. -/
theorem compliancePredicate_accepts_edges (P : Primitives A V) (profile : Profile)
    (zOut : EdgeLabel A V) (wLoc : LocalInput A V) (zIn : List (EdgeLabel A V)) :
    (compliancePredicate P profile zOut wLoc zIn = .ok true ↔
      ProtocolEdge P profile zOut wLoc zIn) ∧
    (MalformedInputs zIn → compliancePredicate P profile zOut wLoc zIn = .ok false) :=
  ⟨⟨protocolEdge_of_accepts, accepts_of_protocolEdge⟩, rejects_of_malformedInputs⟩

end Accepts

end PartyMix
