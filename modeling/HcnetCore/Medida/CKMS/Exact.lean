import HcnetCore.Medida.CKMS.Invariant
import Mathlib.Algebra.Order.BigOperators.Group.List

/-! The exact path of `get`. While fewer than 500 values were inserted since the last
`reset()`, nothing has been summarised, the buffer holds exactly those values, and the cache
`size_when_last_sorted_` is only trusted when the buffer is sorted: every query answers from
the sorted values, whichever queries came before. -/

namespace Medida.Stats.CKMS
variable {α : Type} [LinearOrder α]

/-- The `ceil(n * q)`-th smallest of the `n` values, and `0` for no values or for `q`
outside `(0, 1]`. -/
def exactQuantile [Zero α] (xs : List α) (q : ℚ) : α :=
  if xs = [] ∨ q ≤ 0 ∨ 1 < q then 0
  else (xs.insertionSort (· ≤ ·)).getD (⌈(xs.length : ℚ) * q⌉ - 1).toNat 0

theorem Summary.sample_eq_nil {s : CKMS α} (h : Summary s) (h0 : s.count_ = 0) :
    s.sample_ = [] := by
  rcases hs : s.sample_ with _ | ⟨t, rest⟩
  · rfl
  · have hsum := h.sum_g
    have hrest : 0 ≤ (rest.map Item.g).sum :=
      List.sum_nonneg fun x hx => by
        obtain ⟨u, hu, rfl⟩ := List.mem_map.1 hx
        exact (h.g_pos u (by simp [hs, hu])).le
    have ht := h.g_pos t (by simp [hs])
    rw [hs, h0, List.map_cons, List.sum_cons] at hsum
    omega

theorem Inv.count_zero {s : CKMS α} {xs : List α} (h : Inv s xs) (hn : xs.length < bufferSize) :
    s.count_ = 0 :=
  h.count_zero_or.resolve_right fun hle => by have := h.count_eq; unfold count at this; omega

/-- On the exact path the buffer holds the inserted values themselves. -/
theorem Inv.buffer_perm {s : CKMS α} {xs : List α} (h : Inv s xs) (h0 : s.count_ = 0) :
    s.buffer_.Perm xs := by
  have hsub := h.subperm
  rw [h.sample_eq_nil h0, values, List.map_nil, List.nil_append] at hsub
  exact hsub.perm_of_length_le (by have := h.count_eq; unfold count at this; omega)

/-- Whether `get` sorts again or trusts the cache, it reads the sorted inserted values. -/
theorem Inv.sortBuffer_buffer {s : CKMS α} {xs : List α} (h : Inv s xs) (h0 : s.count_ = 0) :
    s.sortBuffer.buffer_ = xs.insertionSort (· ≤ ·) := by
  have hperm := h.buffer_perm h0
  have hsorted : (xs.insertionSort (· ≤ ·)).Sorted (· ≤ ·) := List.sorted_insertionSort _ _
  unfold CKMS.sortBuffer
  split_ifs with hlt
  · exact List.eq_of_perm_of_sorted ((List.perm_insertionSort _ _).trans
      (hperm.trans (List.perm_insertionSort _ _).symm)) (List.sorted_insertionSort _ _) hsorted
  · have hcache := h.sorted_cache h0
    exact List.eq_of_perm_of_sorted (hperm.trans (List.perm_insertionSort _ _).symm)
      (hcache.2 (by omega)) hsorted

variable [Zero α]

/-- From any state of the invariant for fewer than 500 values, `get` answers exactly. -/
theorem Inv.get_exact {s : CKMS α} {xs : List α} (h : Inv s xs) (hn : xs.length < bufferSize)
    (q : ℚ) : ∃ s', s.get q = some (exactQuantile xs q, s') ∧ Inv s' xs := by
  have h0 := h.count_zero hn
  have hcount : s.count < bufferSize := by rw [h.count_eq]; exact hn
  have hlen : s.buffer_.length = xs.length := (h.buffer_perm h0).length_eq
  by_cases hb : s.buffer_ = []
  · have hx : xs = [] := List.eq_nil_of_length_eq_zero (by simp [← hlen, hb])
    exact ⟨s, by rw [get_of_buffer_nil hcount hb]; simp [exactQuantile, hx], h⟩
  have hx : xs ≠ [] := fun hx => hb (List.eq_nil_of_length_eq_zero (by simp [hlen, hx]))
  rw [get_of_lt hcount hb, hlen, h.sortBuffer_buffer h0]
  by_cases hq : q ≤ 0 ∨ 1 < q
  · exact ⟨_, by simp [hq, exactQuantile], h.sortBuffer⟩
  · push_neg at hq
    obtain ⟨hi0, hilt⟩ := exactIndex_bounds (List.length_pos.2 hx) hq.1 hq.2
    have hi : (⌈(xs.length : ℚ) * q⌉ - 1).toNat < (xs.insertionSort (· ≤ ·)).length := by
      rwa [List.length_insertionSort]
    refine ⟨_, ?_, h.sortBuffer⟩
    simp only [if_neg (not_or.2 ⟨hq.1.not_le, hq.2.not_lt⟩), if_pos hi0, exactQuantile, hx,
      false_or, List.getElem?_eq_getElem hi, List.getD_eq_getElem _ _ hi, Option.map_some']

/-- Below 500 values since the last `reset()`, with `get`s interleaved in any order,
`get(q)` answers the `ceil(n * q)`-th smallest value, read at an index inside the values. -/
theorem get_exact_path (quantiles : List Quantile) (m : α) (ops : List (Op α)) (q : ℚ)
    (hn : (ops.foldl Op.sinceReset []).length < bufferSize) :
    ∃ s s', (new quantiles m).run ops = some s ∧
      s.get q = some (exactQuantile (ops.foldl Op.sinceReset []) q, s') ∧
      (ops.foldl Op.sinceReset [] ≠ [] → 0 < q → q ≤ 1 →
        0 ≤ ⌈((ops.foldl Op.sinceReset []).length : ℚ) * q⌉ - 1 ∧
        ⌈((ops.foldl Op.sinceReset []).length : ℚ) * q⌉ - 1 <
          (ops.foldl Op.sinceReset []).length) := by
  obtain ⟨s, hrun, h⟩ := (inv_new quantiles m).run ops
  obtain ⟨s', hget, -⟩ := h.get_exact hn q
  refine ⟨s, s', hrun, hget, fun hx hq hq1 => ?_⟩
  obtain ⟨hi0, hilt⟩ := exactIndex_bounds (List.length_pos.2 hx) hq hq1
  omega

theorem get_exact_path_three :
    ([Op.insert 3, .get (1 / 2), .insert 1, .insert 2].foldl Op.sinceReset []).length <
        bufferSize ∧
      ∃ s s', (new kDefaultQuantiles (0 : ℕ)).run [.insert 3, .get (1 / 2), .insert 1, .insert 2] =
          some s ∧ s.get (1 / 2) = some (exactQuantile [3, 1, 2] (1 / 2), s') ∧
        ([3, 1, 2] ≠ [] → (0 : ℚ) < 1 / 2 → (1 / 2 : ℚ) ≤ 1 →
          0 ≤ ⌈(([3, 1, 2] : List ℕ).length : ℚ) * (1 / 2)⌉ - 1 ∧
          ⌈(([3, 1, 2] : List ℕ).length : ℚ) * (1 / 2)⌉ - 1 < ([3, 1, 2] : List ℕ).length) :=
  ⟨by decide, get_exact_path kDefaultQuantiles 0 [.insert 3, .get (1 / 2), .insert 1, .insert 2]
    (1 / 2) (by decide)⟩

end Medida.Stats.CKMS
