import Mathlib.Data.Rat.Floor
import Mathlib.Data.List.Sort
import Mathlib.Data.List.InsertIdx

/-! `medida::stats::CKMS` (`stats/ckms.cc`), the targeted-quantile summary behind the
histograms. Up to 500 values wait in `buffer_` and are answered exactly; a full buffer, or a
query once 500 values were seen, is merged into the sorted tuples of `sample_`, which
`compress` then thins. Doubles are exact rationals and the stored values range over any
linear order. An access outside `sample_`, or past the buffered values, makes an operation
return `none`. -/

namespace Medida.Stats

structure Quantile where
  quantile : ℚ
  error : ℚ
  u : ℚ
  v : ℚ
deriving DecidableEq, Repr

/-- `CKMS::Quantile::Quantile`. -/
def Quantile.make (quantile error : ℚ) : Quantile :=
  ⟨quantile, error, 2 * error / (1 - quantile), 2 * error / quantile⟩

/-- `kDefaultQuantiles`: P99 and P50, each to within 0.001. -/
def kDefaultQuantiles : List Quantile := [.make (99 / 100) (1 / 1000), .make (1 / 2) (1 / 1000)]

structure CKMS.Item (α : Type) where
  value : α
  g : ℤ
  delta : ℤ
deriving DecidableEq, Repr

/-- The data members of a `CKMS`; `buffer_` holds `buffer_[0, buffer_count_)`. -/
structure CKMS (α : Type) where
  quantiles_ : List Quantile
  count_ : ℕ
  sample_ : List (CKMS.Item α)
  buffer_ : List α
  sizeWhenLastSorted_ : ℕ
  max_ : α
deriving DecidableEq, Repr

namespace CKMS
variable {α : Type} [LinearOrder α] [Zero α]

/-- `buffer_.size()`. -/
def bufferSize : ℕ := 500

/-- `count()`. -/
def count (s : CKMS α) : ℕ := s.count_ + s.buffer_.length

/-- `CKMS(quantiles)`; the constructor leaves `max_` uninitialised, so it is a parameter. -/
def new (quantiles : List Quantile) (max : α) : CKMS α := ⟨quantiles, 0, [], [], 0, max⟩

/-- `static_cast<int>` of a double rounds toward zero. -/
def truncate (x : ℚ) : ℤ := if 0 ≤ x then ⌊x⌋ else ⌈x⌉

/-- `allowableError(rank)`, against the current `sample_.size()`. -/
def allowableError (quantiles : List Quantile) (size : ℕ) (rank : ℤ) : ℚ :=
  quantiles.foldl (fun minError q =>
    let error : ℚ := if (rank : ℚ) ≤ q.quantile * size then q.u * (size - rank) else q.v * rank
    if error < minError then error else minError) (size + 1)

/-- `while (idx < sample_.size() && sample_[item].value < v) item = idx++;`, with the loop's
variant `sample_.size() - idx` as fuel. -/
def advanceItem (v : α) (sample : List (Item α)) : ℕ → ℕ → ℕ → Option (ℕ × ℕ)
  | 0, item, idx => some (item, idx)
  | fuel + 1, item, idx =>
    if idx < sample.length then
      match sample[item]? with
      | none => none
      | some x => if x.value < v then advanceItem v sample fuel idx (idx + 1) else some (item, idx)
    else some (item, idx)

/-- The merge-insertion loop of `insertBatch` over the sorted buffered values. -/
def insertBatchLoop (quantiles : List Quantile) :
    List α → List (Item α) → ℕ → ℕ → ℕ → Option (List (Item α) × ℕ)
  | [], sample, count, _, _ => some (sample, count)
  | v :: vs, sample, count, item, idx => do
    let (item, idx) ← advanceItem v sample (sample.length - idx) item idx
    let x ← sample[item]?
    let idx := if v < x.value then idx - 1 else idx
    let delta : ℤ := if (idx : ℤ) - 1 = 0 ∨ idx + 1 = sample.length then 0
      else ⌊allowableError quantiles sample.length (idx + 1)⌋ + 1
    if idx ≤ sample.length then
      insertBatchLoop quantiles vs (sample.insertIdx idx ⟨v, 1, delta⟩) (count + 1) idx (idx + 1)
    else none

/-- `insertBatch`; `std::sort` is any sort, since the sorted order of values is unique. -/
def insertBatch (s : CKMS α) : Option (CKMS α × Bool) :=
  match s.buffer_.insertionSort (· ≤ ·) with
  | [] => some (s, false)
  | b :: bs => do
    let (sample, count, rest) :=
      if s.sample_ = [] then ([⟨b, 1, 0⟩], s.count_ + 1, bs) else (s.sample_, s.count_, b :: bs)
    let (sample, count) ← insertBatchLoop s.quantiles_ rest sample count 0 1
    some ({ s with count_ := count, sample_ := sample, buffer_ := [] }, true)

/-- The loop of `compress`: `sample_[next]` absorbs `sample_[prev]` when their spread fits,
and `next` is not moved back after the erase. Fuel bounds the loop's iterations. -/
def compressLoop (quantiles : List Quantile) :
    ℕ → List (Item α) → ℕ → ℕ → Option (List (Item α))
  | 0, sample, _, _ => some sample
  | fuel + 1, sample, next, idx =>
    if idx < sample.length then do
      let prev := next
      let next := idx
      let idx := idx + 1
      let p ← sample[prev]?
      let x ← sample[next]?
      if ((p.g + x.g + x.delta : ℤ) : ℚ) ≤ allowableError quantiles sample.length next then
        compressLoop quantiles fuel ((sample.set next { x with g := x.g + p.g }).eraseIdx prev)
          next idx
      else compressLoop quantiles fuel sample next idx
    else some sample

def compress (s : CKMS α) : Option (CKMS α) :=
  if s.sample_.length < 2 then some s
  else (compressLoop s.quantiles_ s.sample_.length s.sample_ 0 1).map fun sample =>
    { s with sample_ := sample }

def insert (s : CKMS α) (value : α) : Option (CKMS α) :=
  let max := if s.count = 0 then value else if s.max_ < value then value else s.max_
  if s.buffer_.length < bufferSize then
    let s := { s with max_ := max, buffer_ := s.buffer_ ++ [value] }
    if s.buffer_.length = bufferSize then (insertBatch s).bind fun r => compress r.1 else some s
  else none

/-- The rank walk of `get`: the value of `prev` once `cur` may lie beyond `bound`. -/
def getLoop (bound : ℚ) (rankMin : ℤ) (prev : Item α) : List (Item α) → α
  | [] => prev.value
  | cur :: rest =>
    if bound < ((rankMin + prev.g + cur.g + cur.delta : ℤ) : ℚ) then prev.value
    else getLoop bound (rankMin + prev.g) cur rest

/-- `get(q)`, with the state it leaves behind. -/
def get (s : CKMS α) (q : ℚ) : Option (α × CKMS α) :=
  if s.count < bufferSize then
    if s.buffer_.length = 0 then some (0, s)
    else
      let s := if s.sizeWhenLastSorted_ < s.buffer_.length then
        { s with buffer_ := s.buffer_.insertionSort (· ≤ ·),
                 sizeWhenLastSorted_ := s.buffer_.length } else s
      if q ≤ 0 ∨ 1 < q then some (0, s)
      else
        let i : ℤ := ⌈(s.buffer_.length : ℚ) * q⌉ - 1
        if 0 ≤ i then s.buffer_[i.toNat]?.map fun v => (v, s) else none
  else do
    let (s, _) ← insertBatch s
    let s ← compress s
    match s.sample_ with
    | [] => some (0, s)
    | first :: rest =>
      let desired := truncate (q * s.count_)
      let bound : ℚ := desired + allowableError s.quantiles_ s.sample_.length desired / 2
      some (getLoop bound 0 first rest, s)

def reset (s : CKMS α) : CKMS α :=
  { s with count_ := 0, sample_ := [], buffer_ := [], max_ := 0, sizeWhenLastSorted_ := 0 }

/-- The calls a client makes on one summary. -/
inductive Op (α : Type)
  | insert (value : α)
  | get (q : ℚ)
  | reset
deriving DecidableEq, Repr

def step (s : CKMS α) : Op α → Option (CKMS α)
  | .insert value => s.insert value
  | .get q => (s.get q).map Prod.snd
  | .reset => some s.reset

def run (s : CKMS α) : List (Op α) → Option (CKMS α)
  | [] => some s
  | op :: ops => (s.step op).bind fun s => run s ops

end CKMS
end Medida.Stats
