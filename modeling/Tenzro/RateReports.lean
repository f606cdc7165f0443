import Tenzro.RateQuotes

set_option autoImplicit false
set_option linter.dupNamespace false

/-!
# Sealed rate reports

Rates for an epoch are sealed in the hour after it, opened in the hour after that, and tallied
when every seal is opened or that hour has passed; a seal never opened is slashed.
-/
namespace Tenzro.Rates
open ByteCodec FixedWidth Outcome
open Staking (VmError StakeLedger StakeAccounts refuse)

/-! ### Records -/

/-- One validator's sealed report for an epoch. -/
structure RateCommit where
  validator : Bytes
  commitment : Bytes
  stake : ℕ
  opened : Bool
  forfeited : Bool
deriving DecidableEq

structure RateSubmission where
  validator : Bytes
  rate : ℕ
  stake : ℕ
  sources : List String

/-- A frozen epoch rate. -/
structure CommittedFeeRate where
  medianNanoUsd : ℕ
  appliedNanoUsd : ℕ
  submitters : ℕ
  stake : ℕ

structure LiveRate where
  rateNanoUsd : ℕ
  epoch : ℕ
  staleEpochs : ℕ

/-- The dispersion breaker of the fee symbol. -/
structure RateBreaker where
  breachedEpochs : ℕ
  trippedEpoch : Option ℕ

/-- A settlement asset's peg breaker. -/
structure PegBreaker where
  suspended : Bool
  offRun : ℕ
  onRun : ℕ
  lastEpoch : Option ℕ
  sinceEpoch : Option ℕ
  suspensions : ℕ
deriving DecidableEq

/-- What the peg of a listed settlement asset is read from. -/
structure PeggedAsset where
  token : Bytes
  symbol : String
  currency : String
  parBandBps : ℕ

/-- What a report leaves behind: the chain's logs, and marks of what it did to the records. -/
inductive RateLog where
  | sealed (hour epoch : ℕ) (validator : Bytes) (stake : ℕ)
  | opened (hour epoch : ℕ) (validator : Bytes)
  | tallied (hour epoch : ℕ)
  | deleted (epoch : ℕ)
  | froze (symbol : String) (epoch : ℕ) (rows : List RateRow) (median : ℕ)
  | moved (symbol : String) (epoch : ℕ)
  | finalized (symbol : String) (epoch median applied : ℕ) (quorum : Bool) (staleEpochs : ℕ)
  | held (symbol : String) (epoch : ℕ) (reason : String) (rate : Option ℕ) (opened total : ℕ)
  | breakerTripped (epoch breachedEpochs rate : ℕ)
  | unopened (validator : Bytes) (epoch forfeited : ℕ)
  | assetSuspended (token : Bytes) (symbol : String) (epoch rate par : ℕ)
  | assetResumed (token : Bytes) (symbol : String) (epoch rate par : ℕ)
deriving DecidableEq

/-- The rate records, with the stakes and breakers they move. -/
structure RateLedger where
  stakes : StakeLedger
  pending : List ℕ
  prunedBelow : Option ℕ
  commits : ℕ → List RateCommit
  symbols : ℕ → List String
  submissions : String → ℕ → List RateSubmission
  committed : String → ℕ → Option CommittedFeeRate
  live : String → Option LiveRate
  mediansPruned : String → Option ℕ
  breaker : RateBreaker
  pegs : Bytes → PegBreaker
  log : List RateLog

/-- The governed values, as stored. -/
structure RateParams where
  quorumBps : ℕ
  staleQuorumBps : ℕ
  maxChangeBps : ℕ
  maxFallBps : ℕ
  staleEpochs : ℕ
  staleGapBps : ℕ
  frozen : ℕ
  quantileLowBps : ℕ
  quantileHighBps : ℕ
  minSources : ℕ
  breakerSpreadBps : ℕ
  breakerGapBps : ℕ
  breakerEpochs : ℕ
  tnzoUsdNano : ℕ
  mode : ℕ
  unopenedSlashBps : ℕ
  pegSuspendEpochs : ℕ
  pegResumeEpochs : ℕ
  pegResumeBandBps : ℕ

structure RateView where
  nowMs : ℤ
  params : RateParams
  /-- The settlement assets listed. -/
  assets : List PeggedAsset

def marketEpochMs : ℤ := 3600000

def RateView.hour (view : RateView) : ℕ := (max view.nowMs 0 / marketEpochMs).toNat

def RateView.minRateSources (view : RateView) : ℕ :=
  max Rates.minRateSources (min view.params.minSources maxRateMinSources)

def RateView.governanceRate (view : RateView) : ℕ := max view.params.tnzoUsdNano 1

def keptMedianEpochs : ℕ := 720

def maxRatePrunedEpochs : ℕ := 64

def defaultRateStaleQuorumBps : ℕ := 5001

namespace RateLedger
variable (s : RateLedger) (view : RateView)

def logged (entry : RateLog) : RateLedger := { s with log := s.log ++ [entry] }

def setCommits (epoch : ℕ) (commits : List RateCommit) : RateLedger :=
  { s with commits := Function.update s.commits epoch commits }

def liveRecord (symbol : String) : Option LiveRate := (s.live symbol).filter (0 < ·.rateNanoUsd)

/-! ### Peg breakers -/

def readFeeRate : ℕ :=
  if view.params.mode = 1 ∧ s.breaker.trippedEpoch = none then
    (s.liveRecord feeSymbol).elim view.governanceRate LiveRate.rateNanoUsd
  else view.governanceRate

def readSymbolRate (symbol : String) : Option ℕ :=
  match normalizeSymbol symbol with
  | .error _ => none
  | .ok symbol =>
    if symbol = feeSymbol then some (s.readFeeRate view)
    else (s.liveRecord symbol).map LiveRate.rateNanoUsd

def currencyRate (currency : String) : Option ℕ :=
  if currency = "USD" then some 1000000000
  else (s.readSymbolRate view currency).filter (0 < ·)

end RateLedger

def onPeg (rate par bandBps : ℕ) : Bool :=
  saturatingMul 128 (Nat.dist rate par) 10000 ≤ saturatingMul 128 par bandBps

def PegBreaker.stepSuspended (b : PegBreaker) (on : Bool) (resumeEpochs : ℕ) : PegBreaker :=
  let onRun := if on then b.onRun + 1 else 0
  if resumeEpochs ≤ onRun then
    { b with suspended := false, onRun := 0, offRun := 0, sinceEpoch := none }
  else { b with onRun }

def PegBreaker.stepOpen (b : PegBreaker) (on : Bool) (epoch suspendEpochs : ℕ) : PegBreaker :=
  let offRun := if on then 0 else b.offRun + 1
  if suspendEpochs ≤ offRun then
    { b with
      suspended := true
      offRun := 0
      onRun := 0
      sinceEpoch := some epoch
      suspensions := saturatingAdd 64 b.suspensions 1 }
  else { b with offRun }

def maxParBandBps : ℕ := 300

def stepBreaker (params : RateParams) (b : PegBreaker) (epoch rate par parBandBps : ℕ) :
    PegBreaker :=
  if b.lastEpoch.any (epoch ≤ ·) then b
  else
    let next := { b with lastEpoch := some epoch }
    if b.suspended then
      let band := max 10 (min params.pegResumeBandBps 300)
      next.stepSuspended (onPeg rate par (min band parBandBps))
        (max 1 (min params.pegResumeEpochs 720))
    else next.stepOpen (onPeg rate par parBandBps) epoch (max 1 (min params.pegSuspendEpochs 168))

namespace RateLedger
variable (s : RateLedger) (view : RateView)

def stepAsset (symbol : String) (epoch rate : ℕ) (asset : PeggedAsset) : RateLedger :=
  if asset.symbol ≠ symbol then s
  else match s.currencyRate view asset.currency with
    | none => s
    | some par =>
      let before := s.pegs asset.token
      let after := stepBreaker view.params before epoch rate par asset.parBandBps
      if after = before then s
      else
        let s := { s with pegs := Function.update s.pegs asset.token after }
        if after.suspended = before.suspended then s
        else if after.suspended then
          s.logged (.assetSuspended asset.token asset.symbol epoch rate par)
        else s.logged (.assetResumed asset.token asset.symbol epoch rate par)

def observeRate (symbol : String) (epoch rate : ℕ) : RateLedger :=
  view.assets.foldl (fun s asset => s.stepAsset view symbol epoch rate asset) s

/-! ### Tallies -/

def heldLog (symbol : String) (epoch : ℕ) (reason : String) (opened total : ℕ) : RateLedger :=
  let inForce := ((s.liveRecord symbol).map LiveRate.rateNanoUsd).or
    (if symbol = feeSymbol then some view.governanceRate else none)
  s.logged (.held symbol epoch reason inForce opened total)

def countBreach (epoch : ℕ) (breach : Bool) : RateLedger :=
  if s.breaker.trippedEpoch.isSome then s
  else
    let breached := if breach then saturatingAdd 64 s.breaker.breachedEpochs 1 else 0
    if max view.params.breakerEpochs 1 ≤ breached then
      { s with breaker := ⟨breached, some epoch⟩ }.logged
        (.breakerTripped epoch breached view.governanceRate)
    else { s with breaker := ⟨breached, none⟩ }

def pruneMedians (symbol : String) (live : ℕ) : RateLedger :=
  let cutoff := saturatingAdd 64 live 1 - keptMedianEpochs
  let first := (s.mediansPruned symbol).getD cutoff
  let last := min cutoff (saturatingAdd 64 first maxRatePrunedEpochs)
  { s with
    committed := fun sym e =>
      if sym = symbol ∧ first ≤ e ∧ e < last then none else s.committed sym e
    mediansPruned := Function.update s.mediansPruned symbol (some (max last first)) }

def freeze (symbol : String) (epoch : ℕ) (rows : List RateRow) (record : CommittedFeeRate) :
    RateLedger :=
  { s with
    committed := Function.update s.committed symbol
      (Function.update (s.committed symbol) epoch (some record)) }.logged
    (.froze symbol epoch rows record.medianNanoUsd)

def advance (symbol : String) (next : LiveRate) : RateLedger :=
  let s := { s with live := Function.update s.live symbol (some next) }.logged
    (.moved symbol next.epoch)
  (s.pruneMedians symbol next.epoch).observeRate view symbol next.epoch next.rateNanoUsd

def countedRows (symbol : String) (epoch : ℕ) : List RateRow :=
  ((s.submissions symbol epoch).filter fun r => view.minRateSources ≤ r.sources.length).map
    fun r => ⟨r.rate, r.validator, r.stake⟩

def finish (symbol : String) (epoch total : ℕ) (rows : List RateRow) (t : Tally)
    (breach frozen : Bool) (applied stale : ℕ) : RateLedger :=
  let opened := rowsStake rows
  let current := s.liveRecord symbol
  let s := if frozen then
      s.heldLog view symbol epoch (if breach then "dispersion" else "governance_hold") opened total
    else s
  let s := s.freeze symbol epoch rows ⟨t.median, applied, rows.length, opened⟩
  let s := if current.all (·.epoch < epoch) then s.advance view symbol ⟨applied, epoch, stale⟩
    else s
  s.logged (.finalized symbol epoch t.median applied t.full stale)

def settle (symbol : String) (epoch total : ℕ) (rows : List RateRow) (t : Tally) : RateLedger :=
  let opened := rowsStake rows
  let current := s.liveRecord symbol
  let prior := (current.map LiveRate.rateNanoUsd).or
    (if symbol = feeSymbol then some view.governanceRate else none)
  let breach := dispersed t.low t.high view.params.breakerSpreadBps ||
    (symbol = feeSymbol && farFromGoverned t.median view.governanceRate view.params.breakerGapBps)
  let s := if symbol = feeSymbol then s.countBreach view epoch breach else s
  if breach ∧ prior = none then s.heldLog view symbol epoch "dispersion" opened total
  else
    let frozen := view.params.frozen = 1 || breach
    match nextRate prior (current.elim 0 LiveRate.staleEpochs) t
        ⟨view.params.maxChangeBps, view.params.maxFallBps, max view.params.staleEpochs 1,
          view.params.staleGapBps, frozen⟩ with
    | none => s
    | some (applied, stale) => s.finish view symbol epoch total rows t breach frozen applied stale

def tallySymbol (epoch total : ℕ) (symbol : String) : RateLedger :=
  if (s.committed symbol epoch).isSome then s
  else
    let rows := s.countedRows view symbol epoch
    let opened := rowsStake rows
    let staleQuorum := max defaultRateStaleQuorumBps (min view.params.staleQuorumBps 10000)
    if total = 0 ∨ saturatingMul 128 opened 10000 < saturatingMul 128 total staleQuorum then
      s.heldLog view symbol epoch "below_quorum" opened total
    else
      let full := saturatingMul 128 total (min view.params.quorumBps 10000) ≤
        saturatingMul 128 opened 10000
      match stakeWeightedQuantile rows 5000,
        stakeWeightedQuantile rows view.params.quantileLowBps,
        stakeWeightedQuantile rows view.params.quantileHighBps with
      | some median, some low, some high => s.settle view symbol epoch total rows
        ⟨median, low, high, full⟩
      | _, _, _ => s

variable [StakeAccounts]

def forfeit (epoch bps : ℕ) (c : RateCommit) : Except VmError RateLedger := do
  let (stakes, taken) ← s.stakes.slashToInsurance c.validator bps
  let s := { s with stakes := stakes }
  return s.logged (.unopened c.validator epoch taken)

/-- Slashes every validator that sealed `epoch` and never opened it, once. -/
def forfeitUnopened (epoch : ℕ) : Except VmError RateLedger :=
  let commits := s.commits epoch
  if commits.all fun c => c.opened || c.forfeited then .ok s
  else do
    let due := commits.filter fun c => !c.opened && !c.forfeited
    let s ← due.foldlM
      (fun s c => forfeit s epoch (min view.params.unopenedSlashBps 10000) c) s
    return s.setCommits epoch
      (commits.map fun c => { c with forfeited := c.forfeited || !c.opened })

def tallyRates (epoch : ℕ) : Except VmError RateLedger :=
  let total := s.stakes.totalBonded
  let s := s.logged (.tallied view.hour epoch)
  ((s.symbols epoch).foldl (fun s symbol => s.tallySymbol view epoch total symbol) s).forfeitUnopened
    view epoch

end RateLedger

namespace RateLedger
variable (s : RateLedger) (view : RateView)

/-! ### Deleting old reports -/

def deleteEpoch (e : ℕ) : RateLedger :=
  { s with
    submissions := fun symbol e' =>
      if e' = e ∧ symbol ∈ s.symbols e then [] else s.submissions symbol e'
    symbols := Function.update s.symbols e []
    commits := Function.update s.commits e [] }.logged (.deleted e)

def pruneRateEpochs (pending : List ℕ) : RateLedger :=
  let cutoff := view.hour - 2
  let first := s.prunedBelow.getD (pending.foldl min cutoff)
  let last := max (min cutoff (saturatingAdd 64 first maxRatePrunedEpochs)) first
  let s := (List.range' first (last - first)).foldl deleteEpoch s
  { s with prunedBelow := some last }

end RateLedger

/-! ### Reports -/

structure RevealPayload where
  quotes : List RateQuote
  salt : String

structure FeeRateSubmitPayload where
  epoch : ℕ
  commitment : String
  reveal : Option RevealPayload

def openFirst (validator : Bytes) : List RateCommit → List RateCommit
  | [] => []
  | c :: rest =>
    if c.validator = validator then { c with opened := true } :: rest
    else c :: openFirst validator rest

namespace RateLedger
variable (s : RateLedger) (view : RateView)

def sealReport (epoch : ℕ) (sender commitment : Bytes) (stake : ℕ) : RateLedger :=
  (s.setCommits epoch (s.commits epoch ++ [⟨sender, commitment, stake, false, false⟩])).logged
    (.sealed view.hour epoch sender stake)

def fileRate (epoch : ℕ) (sender : Bytes) (stake : ℕ) (r : SymbolRate) : RateLedger :=
  { s with
    submissions := Function.update s.submissions r.symbol
      (Function.update (s.submissions r.symbol) epoch
        (s.submissions r.symbol epoch ++ [⟨sender, r.rate, stake, r.sources⟩]))
    symbols := Function.update s.symbols epoch
      (if r.symbol ∈ s.symbols epoch then s.symbols epoch
      else s.symbols epoch ++ [r.symbol]) }

def markOpened (epoch : ℕ) (sender : Bytes) : RateLedger :=
  (s.setCommits epoch (openFirst sender (s.commits epoch))).logged
    (.opened view.hour epoch sender)

variable [StakeAccounts] [RedStuff.Sha256]

def openReport (epoch : ℕ) (sender : Bytes) (mine : RateCommit) (r : RevealPayload)
    (keep : List ℕ) : Except VmError (RateLedger × List ℕ) := do
  ensure (¬ mine.opened = true) (VmError.invalidTransaction
    s!"this validator already opened its rates for epoch {epoch}")
  let salt ← parseHex32 r.salt "salt"
  let parsed ← r.quotes.mapM fun q => match parseU128 q.rateNanoUsd with
    | none => refuse "rate_nano_usd must be a positive integer"
    | some rate => .ok (q.symbol, q.source, rate)
  ensure (feeRateCommitment sender epoch salt parsed = mine.commitment)
    (VmError.invalidTransaction
      s!"the opened rates do not match the rates sealed for epoch {epoch}")
  let s := s.markOpened view epoch sender
  let rates ← reportRates r.quotes view.minRateSources
  let s := rates.foldl (fun s r => s.fileRate epoch sender mine.stake r) s
  if (s.commits epoch).all RateCommit.opened ∧ epoch ∈ keep then do
    let s ← s.tallyRates view epoch
    return (s, keep.filter (· ≠ epoch))
  else return (s, keep)

def openPrevious (epoch : ℕ) (sender : Bytes) (reveal : Option RevealPayload) (keep : List ℕ) :
    Except VmError (RateLedger × List ℕ) :=
  match reveal with
  | none => .ok (s, keep)
  | some r =>
    if epoch = 0 then refuse "epoch 0 has no earlier sealed rates to open"
    else match (s.commits (epoch - 1)).find? (·.validator = sender) with
      | none => .ok (s, keep)
      | some mine => s.openReport view (epoch - 1) sender mine r keep

/-- One validator's sealed rates for the epoch that just closed, and the opening of its sealed
rates for the epoch before. -/
def submitRate (sender : Bytes) (p : FeeRateSubmitPayload) : Except VmError RateLedger := do
  let closes := wrappingAdd 64 p.epoch 1
  ensure (closes = view.hour) (VmError.invalidTransaction
    s!"rates for epoch {p.epoch} are sealed only during epoch {closes} (current {view.hour})")
  let stake := s.stakes.bond sender
  ensure (stake ≠ 0)
    (VmError.invalidTransaction "only accounts with bonded stake may report rates")
  let commitment ← parseHex32 p.commitment "commitment"
  let pending := s.pending
  let due := pending.filter fun e => wrappingAdd 64 e 2 < view.hour
  let keep := pending.filter fun e => ¬ wrappingAdd 64 e 2 < view.hour
  let s ← due.foldlM (fun s e => s.tallyRates view e) s
  let s := s.pruneRateEpochs view pending
  ensure (¬ (s.commits p.epoch).any fun c => c.validator = sender)
    (VmError.invalidTransaction
      s!"this validator already sealed its rates for epoch {p.epoch}")
  let s := s.sealReport view p.epoch sender commitment stake
  let keep := if p.epoch ∈ keep then keep else keep ++ [p.epoch]
  let (s, keep) ← s.openPrevious view p.epoch sender p.reveal keep
  return { s with pending := keep.mergeSort }

end RateLedger

end Tenzro.Rates
