import PartyMix.Lib.Transition
import PartyMix.WithdrawalHandler

/-!
# The HTTP interface

`api/http.rs` and `api/messages.rs`, from the point where a request has been routed and
its path and JSON body have been read.  A handler takes one lock, once, so requests that
are served at the same time are served in some order.  The two functions of the hex
crate are a parameter.

The handlers that would move coins are stubs, and `main` starts the server with an
empty table and height 0 that nothing else writes: the answers of every run are known.
-/

namespace PartyMix

open DebugText FixedBytes MachineWord Transition

variable {V : Type}

/-! ### Requests and answers -/

inductive StatusCode where
  | badRequest
  | notImplemented

/-- `hex::decode` without its error, and `hex::encode`. -/
structure HexCodec where
  decode : String → Option (List UInt8)
  encode : List UInt8 → String

structure OffChainTransferEnvelope where
  sessionId : Uuid
  encryptedPayloadB64 : String
  channel : String

structure CreateSessionRequest where
  userIdHash : String

structure ConfigSummary where
  withdrawalServiceFee : UInt64
  allowBatchedWithdrawals : Bool
  linkabilityWarning : Option String

/-- `ConfigSummary::from`. -/
def configSummary (c : MixerConfig) : ConfigSummary where
  withdrawalServiceFee := c.withdrawalServiceFee
  allowBatchedWithdrawals := c.allowBatchedWithdrawals
  linkabilityWarning :=
    if c.allowBatchedWithdrawals then
      some ("Batched withdrawals enabled: coins from the same transaction " ++
        "are linkable if recipients communicate (Section 6.3).")
    else
      none

structure CreateSessionResponse where
  sessionId : Uuid
  mixerDepositAddressCommitment : String
  configSummary : ConfigSummary

structure SubmitDepositRequest where
  envelope : OffChainTransferEnvelope

structure SubmitDepositResponse where
  receipt : DepositReceipt

structure SubmitWithdrawalRequest where
  envelope : OffChainTransferEnvelope

structure SubmitWithdrawalResponse where
  withdrawalId : Uuid
  status : String

structure HealthResponse where
  status : String
  chainHeight : UInt64
  poolSolvencyOk : Bool

structure MetricsResponse where
  pendingDeposits : UInt64
  pendingWithdrawals : UInt64
  totalLiabilities : UInt64
  poolValue : UInt64

/-! ### The state of the service -/

structure SessionRecord (V : Type) where
  userIdHash : Bytes 32
  deposits : List DepositReceipt
  withdrawals : List (WithdrawalDelivery V)

structure ApiState (V : Type) where
  sessions : HashMap Uuid (SessionRecord V)

structure AppState (V : Type) where
  config : MixerConfig
  api : ApiState V
  chainHeight : UInt64

/-- The state that `main` serves from. -/
def mainState : AppState V where
  config := MixerConfig.default
  api := ⟨∅⟩
  chainHeight := 0

/-! ### The handlers -/

def health (state : AppState V) : HealthResponse := ⟨"ok", state.chainHeight, true⟩

/-- `order` is the order in which the table is iterated. -/
def metrics (profile : Profile) (order : IterOrder Uuid (SessionRecord V)) (state : AppState V) :
    Exec MetricsResponse := do
  let pendingDeposits ← sumU64 profile
    ((order.values state.api.sessions).map fun s => UInt64.ofNat s.deposits.length)
  return ⟨pendingDeposits, 0, 0, 0⟩

/-- `sessionId` is the id that `Uuid::new_v4` draws. -/
def createSession (hex : HexCodec) (state : AppState V) (req : CreateSessionRequest)
    (sessionId : Uuid) : Except StatusCode CreateSessionResponse × AppState V :=
  match hex.decode req.userIdHash with
  | none => (.error .badRequest, state)
  | some userHash =>
    if hlength : userHash.length = 32 then
      let record : SessionRecord V := ⟨⟨userHash, hlength⟩, [], []⟩
      (.ok
        { sessionId := sessionId
          mixerDepositAddressCommitment := hex.encode (zeroBytes 32).toList
          configSummary := configSummary state.config },
        { state with api := ⟨state.api.sessions.insert sessionId record⟩ })
    else
      (.error .badRequest, state)

def submitDeposit (state : AppState V) (_sessionId : Uuid) (_req : SubmitDepositRequest) :
    Except StatusCode SubmitDepositResponse × AppState V :=
  (.error .notImplemented, state)

def submitWithdrawal (state : AppState V) (_sessionId : Uuid) (_req : SubmitWithdrawalRequest) :
    Except StatusCode SubmitWithdrawalResponse × AppState V :=
  (.error .notImplemented, state)

/-! ### Runs of the server -/

/-- A request and its answer. -/
inductive ApiEvent (V : Type) where
  | health (answer : HealthResponse)
  | metrics (order : IterOrder Uuid (SessionRecord V)) (answer : Exec MetricsResponse)
  | createSession (req : CreateSessionRequest) (sessionId : Uuid)
      (answer : Except StatusCode CreateSessionResponse)
  | submitDeposit (sessionId : Uuid) (req : SubmitDepositRequest)
      (answer : Except StatusCode SubmitDepositResponse)
  | submitWithdrawal (sessionId : Uuid) (req : SubmitWithdrawalRequest)
      (answer : Except StatusCode SubmitWithdrawalResponse)

def ApiStep (profile : Profile) (hex : HexCodec) (state : AppState V) :
    ApiEvent V → AppState V → Prop
  | .health answer, next => health state = answer ∧ state = next
  | .metrics order answer, next => metrics profile order state = answer ∧ state = next
  | .createSession req sessionId answer, next =>
    createSession hex state req sessionId = (answer, next)
  | .submitDeposit sessionId req answer, next => submitDeposit state sessionId req = (answer, next)
  | .submitWithdrawal sessionId req answer, next =>
    submitWithdrawal state sessionId req = (answer, next)

variable {profile : Profile} {hex : HexCodec} {state next : AppState V}
  {events : List (ApiEvent V)} {event : ApiEvent V}

/-- The 32 bytes that the text of a request stands for. -/
def requestedHash (hex : HexCodec) (req : CreateSessionRequest) : Option (Bytes 32) :=
  (hex.decode req.userIdHash).bind fun bytes =>
    if hlength : bytes.length = 32 then some ⟨bytes, hlength⟩ else none

/-- The id and the hash of the session that an event opens. -/
def openedSession (hex : HexCodec) : ApiEvent V → Option (Uuid × Bytes 32)
  | .createSession req sessionId _ => (requestedHash hex req).map (sessionId, ·)
  | _ => none

/-- The hash of the last session that was opened under the id. -/
def lastOpened (hex : HexCodec) (events : List (ApiEvent V)) (id : Uuid) : Option (Bytes 32) :=
  (((events.filterMap (openedSession hex)).filter (·.1 = id)).getLast?).map Prod.snd

/-- What the server answers to a request, whatever came before it. -/
def Answered (hex : HexCodec) : ApiEvent V → Prop
  | .health answer => answer = ⟨"ok", 0, true⟩
  | .metrics _ answer => answer = .ok ⟨0, 0, 0, 0⟩
  | .createSession req sessionId answer =>
    answer =
      if (requestedHash hex req).isSome then
        .ok ⟨sessionId, hex.encode (zeroBytes 32).toList, ⟨1000, false, none⟩⟩
      else
        .error .badRequest
  | .submitDeposit _ _ answer => answer = .error .notImplemented
  | .submitWithdrawal _ _ answer => answer = .error .notImplemented

theorem lastOpened_snoc_of_none (h : openedSession hex event = none) (id : Uuid) :
    lastOpened hex (events ++ [event]) id = lastOpened hex events id := by
  simp [lastOpened, List.filterMap_append, h]

theorem lastOpened_snoc_of_some {sessionId : Uuid} {hash : Bytes 32}
    (h : openedSession hex event = some (sessionId, hash)) (id : Uuid) :
    lastOpened hex (events ++ [event]) id =
      if id = sessionId then some hash else lastOpened hex events id := by
  by_cases hid : id = sessionId
  · simp [lastOpened, List.filterMap_append, h, hid]
  · simp [lastOpened, List.filterMap_append, List.filter_append, h, hid, Ne.symm hid]

/-! ### The invariant -/

/-- The configuration and the height are those of `main`, and the table holds the
    sessions opened so far, each without deposits and withdrawals. -/
structure Serves (hex : HexCodec) (events : List (ApiEvent V)) (state : AppState V) : Prop where
  config : state.config = MixerConfig.default
  chainHeight : state.chainHeight = 0
  sessions : ∀ id, state.api.sessions.lookup id =
    (lastOpened hex events id).map fun hash => ⟨hash, [], []⟩

theorem serves_main : Serves hex [] (mainState : AppState V) := ⟨rfl, rfl, fun _ => rfl⟩

/-- A request that opens no session and writes nothing. -/
theorem Serves.unchanged (hserves : Serves hex events state)
    (h : openedSession hex event = none) : Serves hex (events ++ [event]) state := by
  refine ⟨hserves.config, hserves.chainHeight, ?_⟩
  intro id
  rw [lastOpened_snoc_of_none h, hserves.sessions]

theorem createSession_of_some {req : CreateSessionRequest} {hash : Bytes 32}
    (h : requestedHash hex req = some hash) (state : AppState V) (sessionId : Uuid) :
    createSession hex state req sessionId =
      (.ok ⟨sessionId, hex.encode (zeroBytes 32).toList, configSummary state.config⟩,
        { state with api := ⟨state.api.sessions.insert sessionId ⟨hash, [], []⟩⟩ }) := by
  obtain ⟨bytes, hbytes, hhash⟩ := Option.bind_eq_some_iff.mp h
  split at hhash
  · next hlength =>
    obtain rfl := Option.some_inj.mp hhash
    simp only [createSession, hbytes, dif_pos hlength]
  · cases hhash

theorem createSession_of_none {req : CreateSessionRequest} (h : requestedHash hex req = none)
    (state : AppState V) (sessionId : Uuid) :
    createSession hex state req sessionId = (.error .badRequest, state) := by
  unfold createSession
  cases hbytes : hex.decode req.userIdHash with
  | none => rfl
  | some bytes =>
    have hlength : bytes.length ≠ 32 := by
      intro hlength
      simp [requestedHash, hbytes, hlength] at h
    simp only [dif_neg hlength]

/-- No session has a deposit to count, in any order of the table. -/
theorem Serves.metrics (hserves : Serves hex events state)
    (order : IterOrder Uuid (SessionRecord V)) :
    PartyMix.metrics profile order state = .ok ⟨0, 0, 0, 0⟩ := by
  have hcounts : ∀ count ∈ (order.values state.api.sessions).map fun s =>
      UInt64.ofNat s.deposits.length, count = 0 := by
    intro count hcount
    obtain ⟨record, hrecord, rfl⟩ := List.mem_map.mp hcount
    obtain ⟨id, hid⟩ := (order.mem_values _).mp hrecord
    rw [hserves.sessions] at hid
    obtain ⟨hash, -, rfl⟩ := Option.map_eq_some_iff.mp hid
    rfl
  have hsum : sumU64 profile ((order.values state.api.sessions).map fun s =>
      UInt64.ofNat s.deposits.length) = .ok 0 := by
    rw [List.eq_replicate_of_mem hcounts, sumU64_eq_ok]
    simp
  rw [PartyMix.metrics, hsum]
  rfl

theorem serves_created (hserves : Serves hex events state) {req : CreateSessionRequest}
    {sessionId : Uuid} {answer : Except StatusCode CreateSessionResponse}
    (h : createSession hex state req sessionId = (answer, next)) :
    Answered hex (.createSession req sessionId answer : ApiEvent V) ∧
      Serves hex (events ++ [.createSession req sessionId answer]) next := by
  cases hhash : requestedHash hex req with
  | none =>
    -- not 32 bytes of hex: the answer is 400 and the table stays
    rw [createSession_of_none hhash] at h
    obtain ⟨rfl, rfl⟩ := Prod.mk.inj h
    refine ⟨by simp [Answered, hhash], hserves.unchanged ?_⟩
    simp [openedSession, hhash]
  | some hash =>
    have hopened : ∀ answer, openedSession hex (.createSession req sessionId answer : ApiEvent V) =
        some (sessionId, hash) := by
      intro answer
      simp [openedSession, hhash]
    rw [createSession_of_some hhash] at h
    obtain ⟨rfl, rfl⟩ := Prod.mk.inj h
    refine ⟨?_, hserves.config, hserves.chainHeight, ?_⟩
    · simp [Answered, hhash, hserves.config, configSummary, MixerConfig.default]
    · intro id
      rw [lastOpened_snoc_of_some (hopened _)]
      by_cases hid : id = sessionId
      · -- a record that was there under the id is replaced
        rw [if_pos hid, hid]
        exact Finmap.lookup_insert _
      · -- every other id keeps the session it had
        rw [if_neg hid, ← hserves.sessions]
        exact Finmap.lookup_insert_of_ne _ hid

theorem serves_step (hserves : Serves hex events state) (h : ApiStep profile hex state event next) :
    Answered hex event ∧ Serves hex (events ++ [event]) next := by
  cases event with
  | health answer =>
    obtain ⟨rfl, rfl⟩ := h
    refine ⟨?_, hserves.unchanged rfl⟩
    rw [Answered, PartyMix.health, hserves.chainHeight]
  | metrics order answer =>
    obtain ⟨rfl, rfl⟩ := h
    exact ⟨hserves.metrics order, hserves.unchanged rfl⟩
  | createSession req sessionId answer => exact serves_created hserves h
  | submitDeposit sessionId req answer =>
    obtain ⟨rfl, rfl⟩ := Prod.mk.inj h
    exact ⟨rfl, hserves.unchanged rfl⟩
  | submitWithdrawal sessionId req answer =>
    obtain ⟨rfl, rfl⟩ := Prod.mk.inj h
    exact ⟨rfl, hserves.unchanged rfl⟩

theorem serves_run (hrun : Run (ApiStep profile hex) mainState events state) :
    (∀ event ∈ events, Answered hex event) ∧ Serves hex events state := by
  induction hrun with
  | start => exact ⟨nofun, serves_main⟩
  | snoc _ hlast ih =>
    obtain ⟨hanswered, hserves⟩ := ih
    obtain ⟨hlastAnswered, hnext⟩ := serves_step hserves hlast
    refine ⟨?_, hnext⟩
    intro event hevent
    rcases List.mem_append.mp hevent with hold | hnew
    · exact hanswered event hold
    · rw [List.mem_singleton.mp hnew]
      exact hlastAnswered

/-- **The answers of the server.**  In every run of the server that `main` starts, with any
    requests in any order, `health` reports height 0 and a solvent pool, `metrics` reports
    zeros, no deposit and no withdrawal is taken, and a session is opened exactly when the
    text of the request stands for 32 bytes.  The table holds the last session opened under
    every id, so an id that is drawn again replaces the session it was given to. -/
theorem server_answers (profile : Profile) (hex : HexCodec) (events : List (ApiEvent V))
    (state : AppState V) (hrun : Run (ApiStep profile hex) mainState events state) :
    (∀ event ∈ events, Answered hex event) ∧
      ∀ id, state.api.sessions.lookup id =
        (lastOpened hex events id).map fun hash => ⟨hash, [], []⟩ := by
  obtain ⟨hanswered, hserves⟩ := serves_run hrun
  exact ⟨hanswered, hserves.sessions⟩

/-! ### Two users under one id -/

/-- The value of a hexadecimal digit in either case. -/
def hexValue (c : Char) : Option Nat :=
  if c.isDigit then
    some (c.toNat - '0'.toNat)
  else if 'a' ≤ c ∧ c ≤ 'f' then
    some (c.toNat - 'a'.toNat + 10)
  else if 'A' ≤ c ∧ c ≤ 'F' then
    some (c.toNat - 'A'.toNat + 10)
  else
    none

def decodeHex : List Char → Option (List UInt8)
  | [] => some []
  | [_] => none
  | high :: low :: rest => do
    let highValue ← hexValue high
    let lowValue ← hexValue low
    let bytes ← decodeHex rest
    return UInt8.ofNat (16 * highValue + lowValue) :: bytes

def sampleHex : HexCodec where
  decode text := decodeHex text.toList
  encode bytes := String.ofList (debugHex bytes)

/-- A request for the hash that ends in the byte. -/
def sampleCreate (lastByte : String) : CreateSessionRequest :=
  ⟨String.ofList (List.replicate 62 '0') ++ lastByte⟩

/-- The creation under the nil id, answered with the configuration of `main`. -/
def sampleCreation (lastByte : String) : ApiEvent ToSAccValue :=
  .createSession (sampleCreate lastByte) Uuid.nil
    (.ok ⟨Uuid.nil, sampleHex.encode (zeroBytes 32).toList, ⟨1000, false, none⟩⟩)

def sampleHealth : ApiEvent ToSAccValue := .health ⟨"ok", 0, true⟩

/-- The server with one session, under the nil id. -/
def withSession (lastByte : Nat) : AppState ToSAccValue :=
  ⟨MixerConfig.default, ⟨Finmap.singleton Uuid.nil ⟨beBytes 32 lastByte, [], []⟩⟩, 0⟩

theorem sampleCreations_run :
    Run (ApiStep .release sampleHex) mainState
      [sampleCreation "2A", sampleCreation "2b", sampleHealth] (withSession 43) := by
  have hfirst : Run (ApiStep .release sampleHex) mainState [sampleCreation "2A"]
      (withSession 42) := Run.snoc Run.start rfl
  have hsecond : Run (ApiStep .release sampleHex) mainState
      ([sampleCreation "2A"] ++ [sampleCreation "2b"]) (withSession 43) := Run.snoc hfirst rfl
  have hhealth : ApiStep .release sampleHex (withSession 43) sampleHealth (withSession 43) :=
    ⟨rfl, rfl⟩
  exact Run.snoc hsecond hhealth

/-- When one id is drawn for two users, the session is the second user's. -/
theorem second_session_replaces_first :
    (withSession 43).api.sessions.lookup Uuid.nil = some ⟨beBytes 32 43, [], []⟩ ∧
      Answered sampleHex sampleHealth := by
  obtain ⟨hanswered, hsessions⟩ :=
    server_answers .release sampleHex _ _ sampleCreations_run
  refine ⟨?_, hanswered sampleHealth (by simp)⟩
  rw [hsessions]
  rfl

end PartyMix
