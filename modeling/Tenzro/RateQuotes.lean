import Tenzro.RedStuff
import Tenzro.Staking

set_option autoImplicit false

/-!
# Rates in a report

How a validator's quotes become one rate a symbol, and how the reports of an epoch become the
next rate in force.
-/
namespace Tenzro.Rates
open ByteCodec FixedWidth Outcome
open Staking (VmError refuse)

/-! ### Names and numbers -/

def feeSymbol : String := "TNZO"

def maxRateQuotes : ℕ := 64

def minRateSources : ℕ := 2

def maxRateMinSources : ℕ := 16

/-- The characters a trim removes. -/
def isWhitespace (c : Char) : Bool :=
  let n := c.toNat
  (9 ≤ n ∧ n ≤ 13) ∨ n = 0x20 ∨ n = 0x85 ∨ n = 0xa0 ∨ n = 0x1680 ∨ (0x2000 ≤ n ∧ n ≤ 0x200a) ∨
    n = 0x2028 ∨ n = 0x2029 ∨ n = 0x202f ∨ n = 0x205f ∨ n = 0x3000

def trim (s : String) : List Char :=
  ((s.toList.dropWhile isWhitespace).reverse.dropWhile isWhitespace).reverse

def parseU128 (s : String) : Option ℕ :=
  let digits := match s.toList with
    | '+' :: rest => rest
    | cs => cs
  if digits ≠ [] ∧ digits.all Char.isDigit then
    let n := digits.foldl (fun n c => 10 * n + (c.toNat - 48)) 0
    if n ≤ maxValue 128 then some n else none
  else none

def hexValue (c : Char) : Option ℕ :=
  if c.isDigit then some (c.toNat - 48)
  else if 'a' ≤ c ∧ c ≤ 'f' then some (c.toNat - 87)
  else if 'A' ≤ c ∧ c ≤ 'F' then some (c.toNat - 55)
  else none

def hexDecode : List Char → Option Bytes
  | [] => some []
  | [_] => none
  | high :: low :: rest => do
    let h ← hexValue high
    let l ← hexValue low
    let rest ← hexDecode rest
    return UInt8.ofNat (16 * h + l) :: rest

def stripHexPrefix : List Char → List Char
  | '0' :: 'x' :: rest => stripHexPrefix rest
  | cs => cs

def parseHex32 (s what : String) : Except VmError Bytes :=
  match hexDecode (stripHexPrefix s.toList) with
  | none => refuse s!"{what} is not hex"
  | some b => if b.length = 32 then .ok b else refuse s!"{what} is not 32 bytes"

def normalizeSymbol (symbol : String) : Except VmError String :=
  let s := String.ofList ((trim symbol).map Char.toUpper)
  if s.utf8ByteSize < 2 ∨ 12 < s.utf8ByteSize ∨ ¬ s.toList.all Char.isAlphanum then
    refuse s!"rate symbol {repr symbol} is not 2 to 12 letters or digits"
  else .ok s

/-! ### One report -/

structure RateQuote where
  symbol : String
  source : String
  rateNanoUsd : String
deriving DecidableEq

def readQuotes (sources : List String) (rates : List ℕ) :
    List RateQuote → Except VmError (List String × List ℕ)
  | [] => .ok (sources, rates)
  | q :: rest => do
    let source := String.ofList ((trim q.source).map Char.toLower)
    ensure (¬ (source.isEmpty ∨ 64 < source.utf8ByteSize))
      (VmError.invalidTransaction "a rate source is named in 1 to 64 characters")
    ensure (source ∉ sources)
      (VmError.invalidTransaction s!"source {source} is quoted twice for one symbol")
    match (parseU128 q.rateNanoUsd).filter (0 < ·) with
    | none => refuse "rate_nano_usd must be a positive integer"
    | some rate => readQuotes (sources ++ [source]) (rates ++ [rate]) rest

def reportRate (quotes : List RateQuote) (minSources : ℕ) : Except VmError (ℕ × List String) := do
  let (sources, rates) ← readQuotes [] [] quotes
  ensure (max minSources minRateSources ≤ sources.length) (VmError.invalidTransaction
    s!"a symbol's rate needs at least {max minSources minRateSources} independent sources")
  return ((rates.insertionSort (· ≤ ·)).getD ((rates.length - 1) / 2) 0, sources)

structure SymbolRate where
  symbol : String
  rate : ℕ
  sources : List String

def reportRates (quotes : List RateQuote) (minSources : ℕ) : Except VmError (List SymbolRate) := do
  ensure (quotes.length ≤ maxRateQuotes) (VmError.invalidTransaction
    s!"a rate report carries at most {maxRateQuotes} quotes")
  let named ← quotes.mapM fun q => return (← normalizeSymbol q.symbol, q)
  ensure (named ≠ []) (VmError.invalidTransaction "a rate report quotes at least one symbol")
  ((named.map Prod.fst).dedup.mergeSort fun a b => a ≤ b).mapM fun symbol => do
    let (rate, sources) ← reportRate ((named.filter (·.1 = symbol)).map Prod.snd) minSources
    return ⟨symbol, rate, sources⟩

def feeRateCommitment [RedStuff.Sha256] (validator : Bytes) (epoch : ℕ) (salt : Bytes)
    (quotes : List (String × String × ℕ)) : Bytes :=
  let named (s : String) : Bytes := leBytes 4 s.utf8ByteSize ++ s.toUTF8.toList
  RedStuff.Sha256.digest ("tenzro/fee-rate-commitment/v1".toUTF8.toList ++
    leBytes 4 validator.length ++ validator ++ leBytes 8 epoch ++ salt ++
    quotes.flatMap fun (symbol, source, rate) => named symbol ++ named source ++ leBytes 16 rate)

/-! ### The rate of an epoch -/

/-- A report as it counts: its rate, who made it, the stake behind it. -/
structure RateRow where
  rate : ℕ
  validator : Bytes
  stake : ℕ
deriving DecidableEq

def sortRows (rows : List RateRow) : List RateRow :=
  rows.mergeSort fun a b =>
    a.rate < b.rate ∨ a.rate = b.rate ∧ hexEncode a.validator ≤ hexEncode b.validator

def rowsStake (rows : List RateRow) : ℕ := rows.foldl (fun t r => saturatingAdd 128 t r.stake) 0

def quantileFrom (total q : ℕ) (before : ℕ) : List RateRow → Option ℕ
  | [] => none
  | r :: rest =>
    let reached := saturatingAdd 128 before r.stake
    if saturatingMul 128 total q ≤ saturatingMul 128 reached 10000 then some r.rate
    else quantileFrom total q reached rest

def stakeWeightedQuantile (rows : List RateRow) (qBps : ℕ) : Option ℕ :=
  let rows := sortRows rows
  let total := rowsStake rows
  if total = 0 then none
  else (quantileFrom total (min qBps 10000) 0 rows).or (rows.getLast?.map RateRow.rate)

def rateStep (prior bps : ℕ) : ℕ := saturatingMul 128 prior (min bps 10000) / 10000

def bounded (prior median maxRiseBps maxFallBps : ℕ) : ℕ :=
  max (max (prior - rateStep prior maxFallBps) 1)
    (min median (saturatingAdd 128 prior (rateStep prior maxRiseBps)))

def banded (prior low high maxRiseBps maxFallBps : ℕ) : ℕ :=
  bounded prior (max (min low high) (min prior (max high low))) maxRiseBps maxFallBps

structure RateRules where
  maxChangeBps : ℕ
  maxFallBps : ℕ
  staleEpochs : ℕ
  staleGapBps : ℕ
  frozen : Bool

/-- One epoch's opened reports. -/
structure Tally where
  median : ℕ
  low : ℕ
  high : ℕ
  full : Bool

/-- The next rate in force and the stale epochs counted, if there is a rate to move or the epoch
can set the first one. -/
def nextRate (prior : Option ℕ) (stale : ℕ) (t : Tally) (rules : RateRules) : Option (ℕ × ℕ) :=
  match prior with
  | none => if t.full then some (t.median, 0) else none
  | some prior =>
    if rules.frozen then some (prior, stale)
    else if t.full then
      some (banded prior t.low t.high rules.maxChangeBps rules.maxFallBps, 0)
    else
      let far := saturatingMul 128 t.median rules.staleGapBps <
        saturatingMul 128 (Nat.dist prior t.median) 10000
      let stale := if far then saturatingAdd 64 stale 1 else 0
      if rules.staleEpochs ≤ stale then
        some (bounded prior t.median rules.maxChangeBps rules.maxFallBps, stale)
      else some (prior, stale)

def dispersed (low high boundBps : ℕ) : Bool :=
  saturatingMul 128 (min low high) boundBps <
    saturatingMul 128 (max high low - min low high) 10000

def farFromGoverned (median governed boundBps : ℕ) : Bool :=
  saturatingMul 128 governed boundBps < saturatingMul 128 (Nat.dist median governed) 10000

end Tenzro.Rates
