import HcnetCore.Medida.CKMS.Invariant

/-! Where the tuples of a summary sit. `rmins` pairs each tuple with `g` summed over it and
every tuple before it, the rank the walk of `get` adds `delta` to before comparing with its
bound. A `compress` pass only folds a tuple's `g` into its successor, so the tuples that
survive keep their rank: a pass keeps a sublist of the `rmins` and the last value. -/

namespace Medida.Stats

/-- One target's error at `rank`, the body of the loop of `allowableError`. -/
def Quantile.errorAt (q : Quantile) (size : ℕ) (rank : ℤ) : ℚ :=
  if (rank : ℚ) ≤ q.quantile * size then q.u * (size - rank) else q.v * rank

end Medida.Stats

namespace Medida.Stats.CKMS
variable {α : Type}

section Error

/-- `allowableError` is the least of `size + 1` and every target's error. -/
theorem le_allowableError_iff {quantiles : List Quantile} {size : ℕ} {rank : ℤ} {c : ℚ} :
    c ≤ allowableError quantiles size rank ↔
      c ≤ size + 1 ∧ ∀ q ∈ quantiles, c ≤ q.errorAt size rank := by
  unfold allowableError
  generalize (size : ℚ) + 1 = m
  induction quantiles generalizing m with
  | nil => simp
  | cons q quantiles ih =>
    rw [List.foldl_cons, ih, List.forall_mem_cons]
    show c ≤ (if q.errorAt size rank < m then q.errorAt size rank else m) ∧ _ ↔ _
    split_ifs with h <;> constructor
    · exact fun ⟨h1, h2⟩ => ⟨by linarith, h1, h2⟩
    · exact fun ⟨_, h2, h3⟩ => ⟨h2, h3⟩
    · exact fun ⟨h1, h2⟩ => ⟨h1, by linarith, h2⟩
    · exact fun ⟨h1, _, h3⟩ => ⟨h1, h3⟩

theorem allowableError_le_error {quantiles : List Quantile} {q : Quantile} (hq : q ∈ quantiles)
    (size : ℕ) (rank : ℤ) : allowableError quantiles size rank ≤ q.errorAt size rank :=
  (le_allowableError_iff.1 le_rfl).2 q hq

end Error

section Ranks

/-- Each tuple's value and `delta` with its `rmin`: `g` summed over the tuple and every tuple
before it, counted from `rankMin`. -/
def rmins (rankMin : ℤ) : List (Item α) → List (ℤ × α × ℤ)
  | [] => []
  | x :: xs => (rankMin + x.g, x.value, x.delta) :: rmins (rankMin + x.g) xs

variable (quantiles : List Quantile)

/-- A pass drops the `rmin` of every tuple it folds into its successor and keeps the others. -/
theorem rmins_pass_sublist (done : ℕ) (rankMin : ℤ) (l : List (Item α)) :
    (rmins rankMin (pass quantiles done l)).Sublist (rmins rankMin l) := by
  induction done, l using pass.induct quantiles generalizing rankMin with
  | case1 => simp [pass]
  | case2 => simp [pass]
  | case3 done p x rest h ih =>
    rw [pass_merge quantiles h]
    simp only [rmins, show rankMin + (x.g + p.g) = rankMin + p.g + x.g by ring]
    exact ((ih _).cons₂ _).cons _
  | case4 done p x rest h ih =>
    rw [pass_keep quantiles h, rmins, rmins]
    exact (ih _).cons₂ _

theorem getLast_values_pass (done : ℕ) (l : List (Item α)) :
    (values (pass quantiles done l)).getLast? = (values l).getLast? := by
  induction done, l using pass.induct quantiles with
  | case1 => simp [pass]
  | case2 => simp [pass]
  | case3 done p x rest h ih =>
    simp only [values] at ih ⊢
    simp only [pass_merge quantiles h, List.map_cons, List.getLast?_cons, ih, Option.getD_some]
  | case4 done p x rest h ih =>
    simp only [values] at ih ⊢
    simp only [pass_keep quantiles h, List.map_cons, List.getLast?_cons, ih, Option.getD_some]

theorem length_pass_le (done : ℕ) (l : List (Item α)) :
    (pass quantiles done l).length ≤ l.length := by
  induction done, l using pass.induct quantiles with
  | case1 => simp [pass]
  | case2 => simp [pass]
  | case3 done p x rest h ih => rw [pass_merge quantiles h]; simp only [List.length_cons]; omega
  | case4 done p x rest h ih => rw [pass_keep quantiles h]; simp only [List.length_cons] at *; omega

/-- `compress` only removes tuples, each folding its `g` into its successor: every tuple it keeps
keeps its `rmin`, value and `delta`, the total `g` is unchanged, and the last tuple stays. -/
theorem compress_keeps_ranks [LinearOrder α] (s : CKMS α) :
    ∃ sample', s.compress = some { s with sample_ := sample' } ∧
      (rmins 0 sample').Sublist (rmins 0 s.sample_) ∧
      (sample'.map Item.g).sum = (s.sample_.map Item.g).sum ∧
      (values sample').getLast? = (values s.sample_).getLast? :=
  ⟨_, compress_eq s, rmins_pass_sublist _ 0 0 _, sum_g_pass _ 0 _, getLast_values_pass _ 0 _⟩

end Ranks

section Walk

end Walk

end Medida.Stats.CKMS
