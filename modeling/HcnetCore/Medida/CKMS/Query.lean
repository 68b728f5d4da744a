import HcnetCore.Medida.CKMS.Batch

/-! The two paths of `get`. Below 500 values it sorts the buffer (when values came in since
the last sort) and indexes it; from 500 on it settles the buffer into the summary,
compresses, and walks the tuples' ranks. -/

namespace Medida.Stats.CKMS
variable {α : Type} [LinearOrder α]

/-- The buffer as the exact path of `get` leaves it. -/
def sortBuffer (s : CKMS α) : CKMS α :=
  if s.sizeWhenLastSorted_ < s.buffer_.length then
    { s with buffer_ := s.buffer_.insertionSort (· ≤ ·), sizeWhenLastSorted_ := s.buffer_.length }
  else s

/-- `insertBatch(); compress();` as `insert` and `get` run them. -/
def settle (s : CKMS α) : Option (CKMS α) := s.insertBatch.bind fun r => r.1.compress

theorem length_sortBuffer (s : CKMS α) : s.sortBuffer.buffer_.length = s.buffer_.length := by
  unfold sortBuffer; split_ifs <;> simp [List.length_insertionSort]

/-- The exact path reads `buffer_[ceil(n * q) - 1]`, which lies inside the `n` buffered
values for every `q` in `(0, 1]`. -/
theorem exactIndex_bounds {n : ℕ} {q : ℚ} (hn : 0 < n) (hq : 0 < q) (hq1 : q ≤ 1) :
    0 ≤ ⌈(n : ℚ) * q⌉ - 1 ∧ (⌈(n : ℚ) * q⌉ - 1).toNat < n := by
  have hpos : 0 < ⌈(n : ℚ) * q⌉ := Int.ceil_pos.2 (mul_pos (by exact_mod_cast hn) hq)
  have hle : ⌈(n : ℚ) * q⌉ ≤ n := Int.ceil_le.2 (by
    push_cast
    nlinarith [show (0 : ℚ) ≤ n by positivity])
  omega

variable [Zero α]

/-- The rank walk of `get` on a settled summary. -/
def query (s : CKMS α) (q : ℚ) : α :=
  match s.sample_ with
  | [] => 0
  | first :: rest =>
    getLoop (truncate (q * s.count_) +
      allowableError s.quantiles_ s.sample_.length (truncate (q * s.count_)) / 2) 0 first rest

theorem get_of_buffer_nil {s : CKMS α} (hlt : s.count < bufferSize) (h : s.buffer_ = []) (q : ℚ) :
    s.get q = some (0, s) := by
  simp [CKMS.get, hlt, h]

theorem get_of_lt {s : CKMS α} (hlt : s.count < bufferSize) (hne : s.buffer_ ≠ []) (q : ℚ) :
    s.get q = if q ≤ 0 ∨ 1 < q then some (0, s.sortBuffer) else
      if 0 ≤ ⌈(s.buffer_.length : ℚ) * q⌉ - 1 then
        (s.sortBuffer.buffer_[(⌈(s.buffer_.length : ℚ) * q⌉ - 1).toNat]?).map (·, s.sortBuffer)
      else none := by
  rw [CKMS.get, if_pos hlt, if_neg (by simpa using hne)]
  show (if q ≤ 0 ∨ 1 < q then some (0, s.sortBuffer) else
    if 0 ≤ ⌈(s.sortBuffer.buffer_.length : ℚ) * q⌉ - 1 then
      (s.sortBuffer.buffer_[(⌈(s.sortBuffer.buffer_.length : ℚ) * q⌉ - 1).toNat]?).map
        (·, s.sortBuffer)
    else none) = _
  rw [length_sortBuffer]

theorem get_of_le {s : CKMS α} (hle : bufferSize ≤ s.count) (q : ℚ) :
    s.get q = s.settle.map fun t => (t.query q, t) := by
  rw [CKMS.get, if_neg (by omega), settle]
  cases s.insertBatch with
  | none => rfl
  | some r =>
    obtain ⟨s1, b⟩ := r
    simp only [Option.bind_eq_bind, Option.some_bind]
    cases s1.compress with
    | none => rfl
    | some t =>
      simp only [Option.some_bind, Option.map_some']
      unfold query
      split <;> simp_all

end Medida.Stats.CKMS
