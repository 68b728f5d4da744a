import HcnetCore.Medida.CKMS.Rank
import Mathlib.Algebra.Order.BigOperators.Group.List

/-! The lower half of the rank bracket. A tuple's `g` counts values folded into it, each at or
below its value: a tuple made by `insertBatch` counts its own value, and `compress` folds a tuple
into its successor, whose value is no smaller. So at every value `v` the tuples at or below `v`
weigh no more than the values inserted at or below `v`, and after any calls each tuple's `rmin`
is at most the number of inserted values at or below its value. The upper half, `rmin + delta`,
is what the `delta` of `insertBatch` breaks. -/

namespace Medida.Stats.CKMS
variable {α : Type} [LinearOrder α]

/-- `g` summed over the tuples whose value is at most `v`. -/
def weightAtMost (v : α) (sample : List (Item α)) : ℤ :=
  ((sample.filter fun t => t.value ≤ v).map Item.g).sum

/-- At every value, the tuples and the buffered values at or below it are no more than the
values inserted at or below it since the last `reset()`. -/
def RankBounded (s : CKMS α) (xs : List α) : Prop :=
  ∀ v, weightAtMost v s.sample_ + s.buffer_.countP (· ≤ v) ≤ xs.countP (· ≤ v)

section Weight
variable (v : α)

theorem weightAtMost_append (l₁ l₂ : List (Item α)) :
    weightAtMost v (l₁ ++ l₂) = weightAtMost v l₁ + weightAtMost v l₂ := by
  simp [weightAtMost, List.filter_append]

theorem weightAtMost_perm {l₁ l₂ : List (Item α)} (h : l₁.Perm l₂) :
    weightAtMost v l₁ = weightAtMost v l₂ :=
  ((h.filter _).map _).sum_eq

theorem weightAtMost_cons (t : Item α) (l : List (Item α)) :
    weightAtMost v (t :: l) = (if t.value ≤ v then t.g else 0) + weightAtMost v l := by
  simp only [weightAtMost, List.filter_cons]
  split_ifs <;> simp_all

/-- Tuples of weight one weigh as many as their values at or below `v`. -/
theorem weightAtMost_of_g_eq_one {l : List (Item α)} (hg : ∀ t ∈ l, t.g = 1) :
    weightAtMost v l = (l.map Item.value).countP (· ≤ v) := by
  induction l with
  | nil => rfl
  | cons t l ih =>
    rw [List.forall_mem_cons] at hg
    rw [weightAtMost_cons, ih hg.2, List.map_cons, List.countP_cons, hg.1]
    by_cases hv : t.value ≤ v <;> simp [hv, add_comm]

/-- A `compress` pass only moves weight up to a tuple of no smaller value. -/
theorem weightAtMost_pass_le (quantiles : List Quantile) (done : ℕ) (l : List (Item α))
    (hs : SortedByValue l) (hg : ∀ t ∈ l, 0 ≤ t.g) :
    weightAtMost v (pass quantiles done l) ≤ weightAtMost v l := by
  induction done, l using pass.induct quantiles with
  | case1 => simp [pass]
  | case2 => simp [pass]
  | case3 done p x rest h ih =>
    rw [pass_merge quantiles h]
    simp only [SortedByValue, List.pairwise_cons, List.mem_cons, forall_eq_or_imp] at hs hg
    have hrest := ih hs.2.2 hg.2.2
    simp only [weightAtMost_cons]
    by_cases hx : x.value ≤ v
    · rw [if_pos hx, if_pos hx, if_pos (hs.1.1.trans hx)]
      omega
    · rw [if_neg hx, if_neg hx]
      split_ifs <;> omega
  | case4 done p x rest h ih =>
    rw [pass_keep quantiles h, weightAtMost_cons, weightAtMost_cons v p]
    simp only [SortedByValue, List.pairwise_cons, List.mem_cons, forall_eq_or_imp] at hs hg
    have := ih (List.pairwise_cons.2 hs.2) (by simpa using hg.2)
    omega

end Weight

section Steps
variable {s s' : CKMS α} {xs : List α}

theorem rankBounded_new (quantiles : List Quantile) (m : α) : RankBounded (new quantiles m) [] :=
  fun _ => by simp [new, weightAtMost]

/-- `insertBatch` turns each buffered value into a tuple of weight one. -/
theorem RankBounded.insertBatch (h : RankBounded s xs) (hs : Summary s) {b : Bool}
    (hbatch : s.insertBatch = some (s', b)) : RankBounded s' xs := by
  by_cases hb : s.buffer_ = []
  · rw [insertBatch_of_buffer_nil s hb, Option.some_inj, Prod.mk.injEq] at hbatch
    exact hbatch.1 ▸ h
  obtain ⟨sample', news, hbt, -, hperm, hvals, hg⟩ := insertBatch_spec s hs.sorted hb
  rw [hbt, Option.some_inj, Prod.mk.injEq] at hbatch
  obtain ⟨rfl, -⟩ := hbatch
  intro v
  have := h v
  simp only [weightAtMost_perm v hperm, weightAtMost_append, weightAtMost_of_g_eq_one v hg,
    hvals.countP_eq, List.countP_nil, Nat.cast_zero, add_zero] at this ⊢
  omega

theorem RankBounded.compress (h : RankBounded s xs) (hs : Summary s) :
    RankBounded { s with sample_ := pass s.quantiles_ 0 s.sample_ } xs := fun v =>
  (add_le_add_right (weightAtMost_pass_le v _ 0 _ hs.sorted fun t ht => (hs.g_pos t ht).le)
    _).trans (h v)

theorem RankBounded.settle (h : RankBounded s xs) (hs : Summary s) (hset : s.settle = some s') :
    RankBounded s' xs := by
  obtain ⟨⟨s₁, b⟩, hbatch, hc⟩ := Option.bind_eq_some.1 hset
  have hs₁ : Summary s₁ := by
    by_cases hb : s.buffer_ = []
    · rw [insertBatch_of_buffer_nil s hb, Option.some_inj, Prod.mk.injEq] at hbatch
      exact hbatch.1 ▸ hs
    obtain ⟨sample', hbt, hsum, -⟩ := hs.insertBatch hb
    rw [hbt, Option.some_inj, Prod.mk.injEq] at hbatch
    exact hbatch.1 ▸ hsum
  rw [compress_eq, Option.some_inj] at hc
  exact hc ▸ (h.insertBatch hs hbatch).compress hs₁

theorem RankBounded.sortBuffer (h : RankBounded s xs) : RankBounded s.sortBuffer xs := by
  unfold CKMS.sortBuffer
  split_ifs
  · intro v
    simpa [(List.perm_insertionSort (· ≤ ·) s.buffer_).countP_eq] using h v
  · exact h

theorem RankBounded.insert (h : RankBounded s xs) (hi : Inv s xs) {v : α}
    (hins : s.insert v = some s') : RankBounded s' (xs ++ [v]) := by
  let s₁ : CKMS α := { s with
    max_ := if s.count = 0 then v else if s.max_ < v then v else s.max_
    buffer_ := s.buffer_ ++ [v] }
  have h₁ : RankBounded s₁ (xs ++ [v]) := fun w => by
    have := h w
    simp only [s₁, List.countP_append, Nat.cast_add] at this ⊢
    omega
  have heq : s.insert v = if s₁.buffer_.length = bufferSize then s₁.settle else some s₁ := by
    simp only [CKMS.insert, if_pos hi.buffer_lt]
    rfl
  rw [heq] at hins
  split_ifs at hins
  · exact h₁.settle ⟨hi.sorted, hi.g_pos, hi.sum_g⟩ hins
  · exact Option.some_inj.1 hins ▸ h₁

variable [Zero α]

theorem RankBounded.get (h : RankBounded s xs) {q : ℚ} {a : α} (hget : s.get q = some (a, s'))
    (hi : Inv s xs) : RankBounded s' xs := by
  by_cases hlt : s.count < bufferSize
  · by_cases hb : s.buffer_ = []
    · rw [get_of_buffer_nil hlt hb, Option.some_inj, Prod.mk.injEq] at hget
      exact hget.2 ▸ h
    rw [get_of_lt hlt hb] at hget
    split_ifs at hget
    · exact (Prod.mk.inj (Option.some_inj.1 hget)).2 ▸ h.sortBuffer
    · obtain ⟨b, -, hb'⟩ := Option.map_eq_some'.1 hget
      exact (Prod.mk.inj hb').2 ▸ h.sortBuffer
  · rw [get_of_le (by omega)] at hget
    obtain ⟨t, ht, htq⟩ := Option.map_eq_some'.1 hget
    exact (Prod.mk.inj htq).2 ▸ h.settle hi.toSummary ht

theorem RankBounded.step (h : RankBounded s xs) (hi : Inv s xs) {op : Op α}
    (hstep : s.step op = some s') : RankBounded s' (Op.sinceReset xs op) := by
  cases op with
  | insert v => exact h.insert hi hstep
  | get q =>
    obtain ⟨⟨a, r⟩, hget, rfl⟩ := Option.map_eq_some'.1 hstep
    exact h.get hget hi
  | reset =>
    rw [CKMS.step, Option.some_inj] at hstep
    exact hstep ▸ fun _ => by simp [CKMS.reset, weightAtMost, Op.sinceReset]

theorem RankBounded.run (h : RankBounded s xs) (hi : Inv s xs) (ops : List (Op α))
    (hrun : s.run ops = some s') : RankBounded s' (ops.foldl Op.sinceReset xs) := by
  induction ops generalizing s xs with
  | nil => exact Option.some_inj.1 hrun ▸ h
  | cons op ops ih =>
    obtain ⟨s₁, hs₁, hi₁⟩ := hi.step op
    rw [CKMS.run, hs₁, Option.some_bind] at hrun
    exact ih (h.step hi hs₁) hi₁ hrun

end Steps

omit [LinearOrder α] in
theorem mem_values_of_mem_rmins {rankMin : ℤ} {l : List (Item α)} {r : ℤ × α × ℤ}
    (hr : r ∈ rmins rankMin l) : r.2.1 ∈ values l := by
  induction l generalizing rankMin with
  | nil => simp [rmins] at hr
  | cons x l ih =>
    rcases List.mem_cons.1 hr with rfl | hr
    · simp [values]
    · exact List.mem_cons_of_mem _ (ih hr)

/-- Over sorted tuples, a tuple's `rmin` counts only tuples at or below its value. -/
theorem rmin_le_weightAtMost {l : List (Item α)} (hs : SortedByValue l) (hg : ∀ t ∈ l, 0 ≤ t.g)
    (rankMin : ℤ) : ∀ r ∈ rmins rankMin l, r.1 ≤ rankMin + weightAtMost r.2.1 l := by
  induction l generalizing rankMin with
  | nil => simp [rmins]
  | cons x l ih =>
    simp only [SortedByValue, List.pairwise_cons] at hs
    rw [List.forall_mem_cons] at hg
    have hl : 0 ≤ weightAtMost x.value l := List.sum_nonneg fun g hg' => by
      obtain ⟨t, ht, rfl⟩ := List.mem_map.1 hg'
      exact hg.2 t (List.mem_of_mem_filter ht)
    simp only [rmins, List.mem_cons, forall_eq_or_imp]
    refine ⟨by rw [weightAtMost_cons, if_pos le_rfl]; omega, fun r hr => ?_⟩
    obtain ⟨t, ht, htr⟩ := List.mem_map.1 (mem_values_of_mem_rmins hr)
    have := ih hs.2 hg.2 (rankMin + x.g) r hr
    rw [weightAtMost_cons, if_pos (htr ▸ hs.1 t ht)]
    omega

/-- After any calls from construction, each tuple's `rmin`, the rank the walk of `get` gives it
before adding `delta`, is at most the number of values inserted since the last `reset()` that
are at most its value. -/
theorem rmin_le_rank (quantiles : List Quantile) (m : α) [Zero α] (ops : List (Op α)) :
    ∃ s, (new quantiles m).run ops = some s ∧
      ∀ r ∈ rmins 0 s.sample_, r.1 ≤ (ops.foldl Op.sinceReset []).countP (· ≤ r.2.1) := by
  obtain ⟨s, hrun, hi⟩ := (inv_new quantiles m).run ops
  refine ⟨s, hrun, fun r hr => ?_⟩
  have hb := (rankBounded_new quantiles m).run (inv_new quantiles m) ops hrun r.2.1
  have := rmin_le_weightAtMost hi.sorted (fun t ht => (hi.g_pos t ht).le) 0 r hr
  omega

end Medida.Stats.CKMS
