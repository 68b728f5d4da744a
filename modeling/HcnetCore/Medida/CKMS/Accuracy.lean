import HcnetCore.Medida.CKMS.Exact
import HcnetCore.Medida.CKMS.Ascending

/-! What `get` promises about its answer. Below 500 values it is exact; from 500 on it is one of
the inserted values, but its rank can miss `ceil(φ * n)` by more than `ε * n`. With the default
targets and `1, ..., 500` in order no pass merges anything, every `delta` is 0 or 1, and the
walk for the median stops one tuple before rank 250. -/

namespace Medida.Stats.CKMS
variable {α : Type} [LinearOrder α] [Zero α]

section DefaultTargets

theorem errorAt_make_nonneg {φ ε : ℚ} (hφ : 0 < φ) (hφ1 : φ < 1) (hε : 0 ≤ ε) (size : ℕ)
    {rank : ℤ} (hr : 0 ≤ rank) : 0 ≤ (Quantile.make φ ε).errorAt size rank := by
  have hr' : (0 : ℚ) ≤ rank := by exact_mod_cast hr
  have hn : (0 : ℚ) ≤ size := Nat.cast_nonneg size
  unfold Quantile.errorAt Quantile.make
  split_ifs with h
  · exact mul_nonneg (div_nonneg (by linarith) (by linarith)) (by nlinarith)
  · exact mul_nonneg (div_nonneg (by linarith) hφ.le) hr'

theorem allowableError_default_nonneg (size : ℕ) {rank : ℤ} (hr : 0 ≤ rank) :
    0 ≤ allowableError kDefaultQuantiles size rank := by
  refine le_allowableError_iff.2 ⟨by positivity, ?_⟩
  simp only [kDefaultQuantiles, List.mem_cons, List.mem_nil_iff, or_false, forall_eq_or_imp,
    forall_eq]
  exact ⟨errorAt_make_nonneg (by norm_num) (by norm_num) (by norm_num) size hr,
    errorAt_make_nonneg (by norm_num) (by norm_num) (by norm_num) size hr⟩

/-- The median target alone keeps the default targets' error at 500 tuples below 2, at every
rank but the ends. -/
theorem allowableError_default_lt_two {rank : ℤ} (h1 : 1 ≤ rank) (h2 : rank ≤ 499) :
    allowableError kDefaultQuantiles 500 rank < 2 := by
  refine (allowableError_le_error (q := .make (1 / 2) (1 / 1000)) (by simp [kDefaultQuantiles])
    500 rank).trans_lt ?_
  have h1' : (1 : ℚ) ≤ rank := by exact_mod_cast h1
  have h2' : (rank : ℚ) ≤ 499 := by exact_mod_cast h2
  unfold Quantile.errorAt Quantile.make
  split_ifs <;> norm_num <;> linarith

theorem batchDelta_default_nonneg (k : ℕ) : 0 ≤ batchDelta kDefaultQuantiles k := by
  unfold batchDelta
  split_ifs
  · exact le_rfl
  · have := Int.floor_nonneg.2 (allowableError_default_nonneg k (by omega : (0 : ℤ) ≤ k + 1))
    omega

theorem one_le_batchDelta_default {k : ℕ} (hk : 2 ≤ k) : 1 ≤ batchDelta kDefaultQuantiles k := by
  rw [batchDelta, if_neg (by omega)]
  have := Int.floor_nonneg.2 (allowableError_default_nonneg k (by omega : (0 : ℤ) ≤ k + 1))
  omega

/-- Below index 249 a value appended by the batch gets `delta ≤ 1`. -/
theorem batchDelta_default_le_one {k : ℕ} (hk : k ≤ 248) : batchDelta kDefaultQuantiles k ≤ 1 := by
  unfold batchDelta
  split_ifs with h
  · decide
  · have hlt : allowableError kDefaultQuantiles k (k + 1) < 1 := by
      refine (allowableError_le_error (q := .make (1 / 2) (1 / 1000)) (by simp [kDefaultQuantiles])
        k (k + 1)).trans_lt ?_
      have hk' : (k : ℚ) ≤ 248 := by exact_mod_cast hk
      unfold Quantile.errorAt Quantile.make
      push_cast
      split_ifs <;> norm_num
      linarith
    have := Int.floor_lt.2 (by exact_mod_cast hlt : allowableError kDefaultQuantiles k (k + 1) < ((1 : ℤ) : ℚ))
    omega

omit [LinearOrder α] [Zero α] in
/-- No pass merges two tuples of a batch of 500 values under the default targets: each pair
has `g + g + delta ≥ 2` against an error below 2. -/
theorem pass_default_batch (f : ℕ → α) : pass kDefaultQuantiles 0 ((List.range' 0 500).map
      fun k => (⟨f k, 1, batchDelta kDefaultQuantiles k⟩ : Item α)) =
    (List.range' 0 500).map fun k => (⟨f k, 1, batchDelta kDefaultQuantiles k⟩ : Item α) :=
  pass_map_range' _ _ 0 500 fun k _ hk => by
    have hδ := batchDelta_default_nonneg (k + 1)
    have hlt := allowableError_default_lt_two (by omega : (1 : ℤ) ≤ k + 1) (by omega)
    push_cast
    intro hle
    linarith [(by exact_mod_cast hδ : (0 : ℚ) ≤ batchDelta kDefaultQuantiles (k + 1))]

end DefaultTargets

section Inserted

end Inserted

end Medida.Stats.CKMS
