import HcnetCore.Medida.CKMS.Defs

/-! `medida::stats::Snapshot` (`stats/snapshot.cc`), the read-only view of a sample that the
metrics report from: either the sample's values (`VectorImpl`) or a copy of its `CKMS`
(`CKMSImpl`), divided by a divisor. Doubles are exact rationals; a thrown exception or a failed
`assert` is an error value carrying the source's text. `getValue` of the values is the
Hyndman–Fan type-7 quantile, so it rises with `q` from the least value to the greatest. -/

namespace Medida.Stats

/-- How a snapshot call ends when it returns no value. -/
inductive Failure
  | invalidArgument (what : String)
  | outOfRange
  | assertion (expr : String)
deriving DecidableEq, Repr

/-- `Snapshot::VectorImpl`; its constructor sorts `values_`, and nothing changes it after. -/
structure Snapshot.VectorImpl where
  values_ : List ℚ
  sorted : values_.Sorted (· ≤ ·)

/-- `Snapshot::CKMSImpl`, over its own copy of the summary. -/
structure Snapshot.CKMSImpl where
  ckms_ : CKMS ℚ
  divisor_ : ℕ

inductive Snapshot
  | vector (impl : Snapshot.VectorImpl)
  | ckms (impl : Snapshot.CKMSImpl)

namespace Snapshot

theorem sorted_map_div {values : List ℚ} (h : values.Sorted (· ≤ ·)) (divisor : ℕ) :
    (values.map (· / (divisor : ℚ))).Sorted (· ≤ ·) :=
  List.pairwise_map.2 (h.imp fun hab => div_le_div_of_nonneg_right hab (Nat.cast_nonneg _))

/-- `VectorImpl(values, divisor)`: `std::sort`, then each value divided by the divisor. -/
def VectorImpl.new (values : List ℚ) (divisor : ℕ) : VectorImpl :=
  ⟨(values.insertionSort (· ≤ ·)).map (· / (divisor : ℚ)),
    sorted_map_div (List.sorted_insertionSort _ _) divisor⟩

namespace VectorImpl

def size (s : VectorImpl) : ℕ := s.values_.length

/-- `std::vector::at`. -/
def elementAt (values : List ℚ) (i : ℕ) : Except Failure ℚ :=
  match values[i]? with
  | some x => .ok x
  | none => .error .outOfRange

/-- `getValue(quantile)`: the values at the floor and the ceiling of `quantile * max_idx`,
linearly interpolated; each `assert` fails with its condition. -/
def getValue (s : VectorImpl) (quantile : ℚ) : Except Failure ℚ :=
  if quantile < 0 ∨ 1 < quantile then .error (.invalidArgument "quantile is not in [0..1]")
  else match s.values_ with
  | [] => .ok 0
  | v :: vs =>
    let maxIdx := (v :: vs).length - 1
    let idealIndex : ℚ := quantile * maxIdx
    let floorIdeal := ⌊idealIndex⌋
    if floorIdeal < 0 then .error (.assertion "floor_ideal >= 0.0") else
    let loIdx := floorIdeal.toNat
    if maxIdx < loIdx then .error (.assertion "lo_idx <= max_idx") else
    let hiIdx := loIdx + 1
    if maxIdx < hiIdx then .ok ((v :: vs).getLast (List.cons_ne_nil v vs)) else
    let delta := idealIndex - floorIdeal
    if delta < 0 then .error (.assertion "delta >= 0.0") else
    if 1 ≤ delta then .error (.assertion "delta < 1.0") else do
    let lower ← elementAt (v :: vs) loIdx
    let upper ← elementAt (v :: vs) hiIdx
    pure (lower + delta * (upper - lower))

/-- `max()`. -/
def max (s : VectorImpl) : Except Failure ℚ := s.getValue 1

end VectorImpl

namespace CKMSImpl

def size (s : CKMSImpl) : ℕ := s.ckms_.count

def max (s : CKMSImpl) : ℚ := s.ckms_.max_ / s.divisor_

/-- `getValue(quantile)`: `get` runs on the snapshot's own copy, which it may reorganise. -/
def getValue (s : CKMSImpl) (quantile : ℚ) : Option (ℚ × CKMSImpl) :=
  (s.ckms_.get quantile).map fun r => (r.1 / s.divisor_, { s with ckms_ := r.2 })

end CKMSImpl

def size : Snapshot → ℕ
  | vector s => s.size
  | ckms s => s.size

section HyndmanFan

/-- `x_⌊h⌋ + (h - ⌊h⌋) (x_(⌊h⌋+1) - x_⌊h⌋)`, the straight line through `x` around `h`. -/
def interpolate (x : ℕ → ℚ) (h : ℚ) : ℚ := x ⌊h⌋₊ + (h - ⌊h⌋₊) * (x (⌊h⌋₊ + 1) - x ⌊h⌋₊)

/-- The Hyndman–Fan type-7 quantile in its 1-based textbook form: over the sorted values
`x_1 ≤ ... ≤ x_n`, with `x_(n+1) := x_n`, the interpolation at `h = (n - 1) q + 1`. -/
def hyndmanFan7 (values : List ℚ) (q : ℚ) : ℚ :=
  let xs := values.insertionSort (· ≤ ·)
  interpolate (fun j => xs.getD (min j xs.length - 1) 0) ((xs.length - 1) * q + 1)

theorem interpolate_le_succ {x : ℕ → ℚ} (hx : Monotone x) (h : ℚ) :
    interpolate x h ≤ x (⌊h⌋₊ + 1) := by
  have hd : h - ⌊h⌋₊ ≤ 1 := by linarith [Nat.lt_floor_add_one h]
  have hs : 0 ≤ x (⌊h⌋₊ + 1) - x ⌊h⌋₊ := sub_nonneg.2 (hx (Nat.le_succ _))
  unfold interpolate
  nlinarith

theorem le_interpolate {x : ℕ → ℚ} (hx : Monotone x) {h : ℚ} (h0 : 0 ≤ h) :
    x ⌊h⌋₊ ≤ interpolate x h :=
  le_add_of_nonneg_right (mul_nonneg (sub_nonneg.2 (Nat.floor_le h0))
    (sub_nonneg.2 (hx (Nat.le_succ _))))

/-- Interpolating a monotone sequence is monotone: within one step the line rises, and across
steps it passes through the sequence's own values. -/
theorem interpolate_mono {x : ℕ → ℚ} (hx : Monotone x) {h₁ h₂ : ℚ} (h0 : 0 ≤ h₁)
    (h12 : h₁ ≤ h₂) : interpolate x h₁ ≤ interpolate x h₂ := by
  rcases (Nat.floor_le_floor h12).lt_or_eq with hlt | heq
  · calc interpolate x h₁ ≤ x (⌊h₁⌋₊ + 1) := interpolate_le_succ hx h₁
      _ ≤ x ⌊h₂⌋₊ := hx hlt
      _ ≤ interpolate x h₂ := le_interpolate hx (h0.trans h12)
  · have hs : 0 ≤ x (⌊h₁⌋₊ + 1) - x ⌊h₁⌋₊ := sub_nonneg.2 (hx (Nat.le_succ _))
    unfold interpolate
    rw [← heq]
    nlinarith

/-- The 1-based points of a sorted list, `x_(n+1) := x_n`, rise with their index. -/
theorem monotone_points {xs : List ℚ} (hs : xs.Sorted (· ≤ ·)) (hne : xs ≠ []) :
    Monotone fun j => xs.getD (min j xs.length - 1) 0 := by
  intro i j hij
  have hn := List.length_pos.2 hne
  have hi : min i xs.length - 1 < xs.length := by omega
  have hj : min j xs.length - 1 < xs.length := by omega
  simp only [List.getD_eq_getElem _ _ hi, List.getD_eq_getElem _ _ hj]
  exact hs.rel_get_of_le (a := ⟨_, hi⟩) (b := ⟨_, hj⟩) (by simp only [Fin.mk_le_mk]; omega)

end HyndmanFan

section GetValue

theorem elementAt_of_lt {values : List ℚ} {i : ℕ} (h : i < values.length) :
    VectorImpl.elementAt values i = .ok values[i] := by
  simp [VectorImpl.elementAt, List.getElem?_eq_getElem h]

/-- On nonempty values, `getValue` at any `q ∈ [0, 1]` passes every `assert`, reads only
indices below the length, and answers the type-7 interpolation of its own sorted values. -/
theorem getValue_eq_interpolate (s : VectorImpl) (hne : s.values_ ≠ []) {q : ℚ} (hq0 : 0 ≤ q)
    (hq1 : q ≤ 1) : s.getValue q = .ok (interpolate (fun j => s.values_.getD
      (min j s.values_.length - 1) 0) ((s.values_.length - 1) * q + 1)) := by
  obtain ⟨vals, hsorted⟩ := s
  cases vals with
  | nil => exact absurd rfl hne
  | cons v vs =>
    dsimp only
    have ht0 : 0 ≤ q * vs.length := mul_nonneg hq0 (Nat.cast_nonneg _)
    have hk : ⌊q * vs.length⌋₊ ≤ vs.length :=
      Nat.floor_le_of_le (mul_le_of_le_one_left (Nat.cast_nonneg _) hq1)
    have hfl : ⌊q * vs.length⌋ = (⌊q * vs.length⌋₊ : ℤ) := by
      rw [← Int.floor_toNat, Int.toNat_of_nonneg (Int.floor_nonneg.2 ht0)]
    have hδ : q * vs.length - ⌊q * vs.length⌋₊ < 1 := by
      linarith [Nat.lt_floor_add_one (q * vs.length)]
    rw [show ((v :: vs).length - 1 : ℚ) * q + 1 = q * vs.length + 1 by simp; ring]
    simp only [VectorImpl.getValue, List.length_cons, Nat.add_sub_cancel, interpolate,
      Nat.floor_add_one ht0, hfl, Int.toNat_natCast, if_neg (not_or.2 ⟨not_lt.2 hq0, not_lt.2 hq1⟩),
      if_neg (not_lt.2 (Int.natCast_nonneg _)), if_neg (not_lt.2 hk), Int.cast_natCast,
      if_neg (not_lt.2 (sub_nonneg.2 (Nat.floor_le ht0))), if_neg (not_le.2 hδ),
      min_eq_left (Nat.succ_le_succ hk), Nat.succ_sub_one, Nat.cast_succ, add_sub_add_right_eq_sub]
    rcases hk.lt_or_eq with hlt | heq
    · rw [if_neg (by omega), elementAt_of_lt (by simp; omega), elementAt_of_lt (by simp; omega),
        min_eq_left (by omega : ⌊q * vs.length⌋₊ + 1 + 1 ≤ vs.length + 1), Nat.add_sub_cancel,
        List.getD_eq_getElem _ _ (by simp; omega), List.getD_eq_getElem _ _ (by simp; omega)]
      rfl
    · rw [if_pos (by omega), List.getLast_eq_getElem, heq, min_eq_right (by omega),
        Nat.add_sub_cancel, sub_self, mul_zero, add_zero, List.getD_eq_getElem _ _ (by simp)]
      rfl

end GetValue

section TypeSeven

theorem interpolate_div (x : ℕ → ℚ) (h c : ℚ) :
    interpolate (fun j => x j / c) h = interpolate x h / c := by
  unfold interpolate; ring

theorem getD_map_div (xs : List ℚ) (i : ℕ) (c : ℚ) : (xs.map (· / c)).getD i 0 = xs.getD i 0 / c := by
  simpa using List.getD_map xs 0 (· / c)

/-- Every value is one of the 1-based points `x_1, ..., x_n`. -/
theorem exists_point_eq {xs : List ℚ} {y : ℚ} (hy : y ∈ xs) :
    ∃ j, 1 ≤ j ∧ j ≤ xs.length ∧ xs.getD (min j xs.length - 1) 0 = y := by
  obtain ⟨i, hi, rfl⟩ := List.mem_iff_getElem.1 hy
  exact ⟨i + 1, by omega, hi, by rw [min_eq_left hi, Nat.succ_sub_one, List.getD_eq_getElem _ _ hi]⟩

theorem point_mem {xs : List ℚ} (hne : xs ≠ []) (j : ℕ) : xs.getD (min j xs.length - 1) 0 ∈ xs := by
  have hn := List.length_pos.2 hne
  rw [List.getD_eq_getElem _ _ (by omega)]
  exact List.getElem_mem _

variable {values : List ℚ} (hne : values ≠ [])
include hne

theorem insertionSort_ne_nil : values.insertionSort (· ≤ ·) ≠ [] := by
  rw [← List.length_pos, List.length_insertionSort]; exact List.length_pos.2 hne

theorem hyndmanFan7_mono {q₁ q₂ : ℚ} (h0 : 0 ≤ q₁) (h12 : q₁ ≤ q₂) :
    hyndmanFan7 values q₁ ≤ hyndmanFan7 values q₂ := by
  have hn : (1 : ℚ) ≤ (values.insertionSort (· ≤ ·)).length := by
    exact_mod_cast List.length_pos.2 (insertionSort_ne_nil hne)
  exact interpolate_mono (monotone_points (List.sorted_insertionSort _ _) (insertionSort_ne_nil hne))
    (by nlinarith) (by nlinarith)

/-- At `q = 0` the type-7 quantile is the least value. -/
theorem hyndmanFan7_zero : ∃ m ∈ values, (∀ x ∈ values, m ≤ x) ∧ hyndmanFan7 values 0 = m := by
  have hmono := monotone_points (List.sorted_insertionSort (· ≤ ·) values) (insertionSort_ne_nil hne)
  have hperm := List.perm_insertionSort (· ≤ ·) values
  refine ⟨_, hperm.subset (point_mem (insertionSort_ne_nil hne) 1), fun x hx => ?_, ?_⟩
  · obtain ⟨j, hj, -, rfl⟩ := exists_point_eq (hperm.symm.subset hx)
    exact hmono hj
  · simp [hyndmanFan7, interpolate]

/-- At `q = 1` the type-7 quantile is the greatest value. -/
theorem hyndmanFan7_one : ∃ m ∈ values, (∀ x ∈ values, x ≤ m) ∧ hyndmanFan7 values 1 = m := by
  set xs := values.insertionSort (· ≤ ·)
  have hmono := monotone_points (List.sorted_insertionSort (· ≤ ·) values) (insertionSort_ne_nil hne)
  have hperm := List.perm_insertionSort (· ≤ ·) values
  refine ⟨_, hperm.subset (point_mem (insertionSort_ne_nil hne) xs.length), fun x hx => ?_, ?_⟩
  · obtain ⟨j, -, hj, rfl⟩ := exists_point_eq (hperm.symm.subset hx)
    exact hmono hj
  · simp only [hyndmanFan7, interpolate, mul_one, sub_add_cancel, Nat.floor_natCast, sub_self,
      zero_mul, add_zero]

end TypeSeven

section Quantile

theorem getValue_new (values : List ℚ) (divisor : ℕ) (hne : values ≠ []) {q : ℚ} (hq0 : 0 ≤ q)
    (hq1 : q ≤ 1) :
    (VectorImpl.new values divisor).getValue q = .ok (hyndmanFan7 values q / divisor) := by
  rw [getValue_eq_interpolate _ (by simpa [VectorImpl.new] using insertionSort_ne_nil hne) hq0 hq1]
  simp only [VectorImpl.new, List.length_map, getD_map_div, interpolate_div, hyndmanFan7]

/-- A snapshot of `n ≥ 1` values answers, at every `q ∈ [0, 1]`, their type-7 quantile divided by
the divisor, every `assert` holding and every index inside the values; so its answer rises with
`q`, from the least value at 0 to the greatest at 1, which is what `max()` reads. -/
theorem getValue_type7 (values : List ℚ) (divisor : ℕ) (hne : values ≠ []) :
    (∀ q, 0 ≤ q → q ≤ 1 →
      (VectorImpl.new values divisor).getValue q = .ok (hyndmanFan7 values q / divisor)) ∧
    (∀ q₁ q₂, 0 ≤ q₁ → q₁ ≤ q₂ → q₂ ≤ 1 → ∃ a₁ a₂,
      (VectorImpl.new values divisor).getValue q₁ = .ok a₁ ∧
      (VectorImpl.new values divisor).getValue q₂ = .ok a₂ ∧ a₁ ≤ a₂) ∧
    (∃ m ∈ values, (∀ x ∈ values, m ≤ x) ∧
      (VectorImpl.new values divisor).getValue 0 = .ok (m / divisor)) ∧
    (∃ m ∈ values, (∀ x ∈ values, x ≤ m) ∧
      (VectorImpl.new values divisor).max = .ok (m / divisor)) := by
  have hget := fun q (h0 : 0 ≤ q) (h1 : q ≤ 1) => getValue_new values divisor hne h0 h1
  refine ⟨hget, fun q₁ q₂ h0 h12 h2 => ⟨_, _, hget q₁ h0 (h12.trans h2),
    hget q₂ (h0.trans h12) h2, div_le_div_of_nonneg_right (hyndmanFan7_mono hne h0 h12)
      (Nat.cast_nonneg _)⟩, ?_, ?_⟩
  · obtain ⟨m, hm, hle, heq⟩ := hyndmanFan7_zero hne
    exact ⟨m, hm, hle, by rw [hget 0 le_rfl zero_le_one, heq]⟩
  · obtain ⟨m, hm, hle, heq⟩ := hyndmanFan7_one hne
    exact ⟨m, hm, hle, by rw [VectorImpl.max, hget 1 zero_le_one le_rfl, heq]⟩

theorem getValue_type7_three : ([3, 1, 2] : List ℚ) ≠ [] ∧
    (∀ q, 0 ≤ q → q ≤ 1 →
      (VectorImpl.new [3, 1, 2] 2).getValue q = .ok (hyndmanFan7 [3, 1, 2] q / (2 : ℕ))) ∧
    (∀ q₁ q₂, 0 ≤ q₁ → q₁ ≤ q₂ → q₂ ≤ 1 → ∃ a₁ a₂,
      (VectorImpl.new [3, 1, 2] 2).getValue q₁ = .ok a₁ ∧
      (VectorImpl.new [3, 1, 2] 2).getValue q₂ = .ok a₂ ∧ a₁ ≤ a₂) ∧
    (∃ m ∈ ([3, 1, 2] : List ℚ), (∀ x ∈ ([3, 1, 2] : List ℚ), m ≤ x) ∧
      (VectorImpl.new [3, 1, 2] 2).getValue 0 = .ok (m / (2 : ℕ))) ∧
    (∃ m ∈ ([3, 1, 2] : List ℚ), (∀ x ∈ ([3, 1, 2] : List ℚ), x ≤ m) ∧
      (VectorImpl.new [3, 1, 2] 2).max = .ok (m / (2 : ℕ))) :=
  ⟨by decide, getValue_type7 [3, 1, 2] 2 (by decide)⟩

end Quantile

end Snapshot
end Medida.Stats
