import HcnetCore.Medida.CKMS.Accuracy

/-! The rank bracket `rmin ≤ r ≤ rmin + delta` that the walk of `get` presumes of each tuple, and
where `insertBatch` breaks it. A value inserted at index 1, between the first two tuples, gets
`delta = 0`: the test `idx - 1 == 0` is one off from the new minimum at index 0. Once a pass has
folded values into the second tuple, some of them lie below the new value, and its true rank is
above its `rmin`. With the default targets, `10, 20, ..., 10000` in order and then `35`, the
tuple of 35 claims rank 3 exactly, while 35 is the fourth value. -/

namespace Medida.Stats.CKMS
variable {α : Type} [LinearOrder α]

section IndexOne

/-- A single buffered value strictly between the first two tuples goes in at index 1, with
`delta = 0`. -/
theorem insertBatch_index_one {s : CKMS α} {a b : Item α} {T : List (Item α)} {v : α}
    (hs : s.sample_ = a :: b :: T) (hbuf : s.buffer_ = [v]) (ha : a.value < v)
    (hb : v < b.value) :
    s.insertBatch = some ({ s with
      count_ := s.count_ + 1
      sample_ := a :: ⟨v, 1, 0⟩ :: b :: T
      buffer_ := [] }, true) := by
  have hadv : advanceItem v (a :: b :: T) (T.length + 1) 0 1 = some (1, 2) := by
    cases T <;> simp [advanceItem, ha, not_lt.2 hb.le]
  simp [insertBatch, hbuf, hs, insertBatchLoop, hadv, hb, List.insertIdx]

end IndexOne

section DefaultTargets

theorem le_allowableError_default {c : ℚ} {size : ℕ} {rank : ℤ} (h0 : 0 ≤ rank)
    (h2 : (rank : ℚ) ≤ size / 2) (hc : c ≤ (size - rank) / 250) :
    c ≤ allowableError kDefaultQuantiles size rank := by
  have h0' : (0 : ℚ) ≤ rank := by exact_mod_cast h0
  refine le_allowableError_iff.2 ⟨by linarith, ?_⟩
  simp only [kDefaultQuantiles, List.mem_cons, List.mem_nil_iff, or_false, forall_eq_or_imp,
    forall_eq, Quantile.errorAt, Quantile.make]
  rw [if_pos (by linarith), if_pos (by linarith)]
  constructor <;> linarith

theorem allowableError_default_two_lt {size : ℕ} (h : size ≤ 1001) :
    allowableError kDefaultQuantiles size 2 < 4 := by
  refine (allowableError_le_error (q := .make (1 / 2) (1 / 1000)) (by simp [kDefaultQuantiles])
    size 2).trans_lt ?_
  have h' : (size : ℚ) ≤ 1001 := by exact_mod_cast h
  unfold Quantile.errorAt Quantile.make
  split_ifs <;> norm_num
  linarith

end DefaultTargets

section Trace

theorem sorted_map_tens (i n : ℕ) : ((List.range' i n).map (10 * ·)).Sorted (· < ·) :=
  List.pairwise_map.2 ((List.pairwise_lt_range' i n).imp fun h => by omega)

theorem batchDelta_default_three : batchDelta kDefaultQuantiles 3 = 1 :=
  le_antisymm (batchDelta_default_le_one (by norm_num)) (one_le_batchDelta_default (by norm_num))

/-- The values `10, 20, ..., 10000` inserted in order: two batches, each appended above the
summary, and the second pass folds the first value into the second and the third into the
fourth. -/
theorem run_tens : ∃ s T, (new kDefaultQuantiles (0 : ℕ)).run
      ((List.range' 1 1000).map fun k => Op.insert (10 * k)) = some s ∧
    s.quantiles_ = kDefaultQuantiles ∧ s.count_ = 1000 ∧ s.buffer_ = [] ∧ T.length ≤ 996 ∧
    s.sample_ = ⟨20, 2, 0⟩ :: ⟨40, 2, 1⟩ :: T := by
  let F : ℕ → Item ℕ := fun k => ⟨10 * (k + 1), 1, batchDelta kDefaultQuantiles k⟩
  obtain ⟨s₁, hrun₁, hq₁, hc₁, hs₁, hb₁⟩ := run_sorted_batch kDefaultQuantiles (0 : ℕ)
    ((List.range' 1 500).map (10 * ·)) ((sorted_map_tens 1 500).imp le_of_lt) (by simp [bufferSize])
  rw [batchItems_map_range' _ _ 0 500, pass_default_batch] at hs₁
  obtain ⟨s₂, hrun₂, hq₂, hc₂, hb₂, hs₂⟩ := run_batch_above hb₁ (by simp [hs₁])
    ((List.range' 501 500).map (10 * ·)) ((sorted_map_tens 501 500).imp le_of_lt)
    (by simp [bufferSize]) (by
      simp only [hs₁, List.mem_map, List.mem_range'_1]
      rintro _ ⟨k, hk, rfl⟩ _ ⟨j, hj, rfl⟩
      dsimp only
      omega)
  have hbatch : s₁.sample_ ++ batchItems s₁.quantiles_ s₁.sample_.length
      ((List.range' 501 500).map (10 * ·)) = (List.range' 0 1000).map F := by
    rw [hs₁, hq₁, List.length_map, List.length_range', batchItems_map_range' _ _ 500 500,
      show List.range' 0 1000 = List.range' 0 500 ++ List.range' 500 500 from
        (List.range'_append 0 500 500 1).symm, List.map_append]
  have hF : (List.range' 0 1000).map F = F 0 :: F 1 :: F 2 :: F 3 :: (List.range' 4 996).map F := by
    rw [show List.range' 0 1000 = List.range' 0 4 ++ List.range' 4 996 from
      (List.range'_append 0 4 996 1).symm]
    rfl
  have hpass : pass kDefaultQuantiles 0 ((List.range' 0 1000).map F) =
      ⟨20, 2, 0⟩ :: ⟨40, 2, 1⟩ :: pass kDefaultQuantiles 2 ((List.range' 4 996).map F) := by
    rw [hF, pass_merge, pass_merge]
    · simp [F, batchDelta_of_le_one, batchDelta_default_three]
    · simp only [F, batchDelta_default_three, List.length_map, List.length_range']
      exact le_allowableError_default (by norm_num) (by norm_num) (by norm_num)
    · simp only [F, batchDelta_of_le_one _ (le_refl 1), List.length_cons, List.length_map,
        List.length_range']
      exact le_allowableError_default (by norm_num) (by norm_num) (by norm_num)
  have hops : ∀ i n, (List.range' i n).map (fun k => Op.insert (10 * k)) =
      ((List.range' i n).map (10 * ·)).map Op.insert := fun _ _ => by rw [List.map_map]; rfl
  refine ⟨s₂, pass kDefaultQuantiles 2 ((List.range' 4 996).map F), ?_, hq₂.trans hq₁,
    by rw [hc₂, hc₁]; rfl, hb₂, (length_pass_le _ _ _).trans (by simp),
    by rw [hs₂, hbatch, hq₁, hpass]⟩
  rw [show List.range' 1 1000 = List.range' 1 500 ++ List.range' 501 500 from
    (List.range'_append 1 500 500 1).symm, List.map_append, run_append, hops, hrun₁,
    Option.some_bind, hops, hrun₂]

end Trace

/-- The values `1, ..., 1000` times ten, then 35: the sorted values put 35 fourth and nowhere
else. -/
theorem sorted_tens_position (r : ℕ)
    (h : ((((List.range' 1 1000).map (10 * ·)) ++ [35]).insertionSort (· ≤ ·))[r - 1]? = some 35) :
    r = 4 := by
  have hsorted : ((List.range' 1 3).map (10 * ·) ++ 35 :: (List.range' 4 997).map (10 * ·)).Sorted
      (· < ·) := by
    refine List.pairwise_append.2 ⟨sorted_map_tens 1 3,
      List.sorted_cons.2 ⟨?_, sorted_map_tens 4 997⟩, ?_⟩
    · simp only [List.mem_map, List.mem_range'_1]
      rintro _ ⟨k, hk, rfl⟩
      omega
    · simp only [List.mem_map, List.mem_range'_1, List.mem_cons]
      rintro _ ⟨k, hk, rfl⟩ _ (rfl | ⟨j, hj, rfl⟩) <;> omega
  have hperm : (((List.range' 1 1000).map (10 * ·)) ++ [35]).Perm
      ((List.range' 1 3).map (10 * ·) ++ 35 :: (List.range' 4 997).map (10 * ·)) := by
    rw [show List.range' 1 1000 = List.range' 1 3 ++ List.range' 4 997 from
      (List.range'_append 1 3 997 1).symm, List.map_append, List.append_assoc]
    exact (List.perm_append_comm.append_left _).trans (by simp)
  rw [List.eq_of_perm_of_sorted ((List.perm_insertionSort _ _).trans hperm)
    (List.sorted_insertionSort _ _) (hsorted.imp le_of_lt)] at h
  have h3 : ((List.range' 1 3).map (10 * ·) ++ 35 :: (List.range' 4 997).map (10 * ·))[3]? =
      some 35 := by rw [List.getElem?_append_right (by simp)]; simp
  have := List.getElem?_inj (List.getElem?_eq_some_iff.1 h).1 hsorted.nodup (h.trans h3.symm)
  omega

/-- With the default targets, `10, 20, ..., 10000` inserted in order, then `35`, a `get` leaves
a summary of all 1001 values in which the tuple of 35 has `rmin = 3` and `delta = 0`, so its
bracket is `[3, 3]`, while 35 sits at position 4 of the sorted values and nowhere else. -/
theorem rank_bracket_misses :
    ∃ s, (new kDefaultQuantiles (0 : ℕ)).run (((List.range' 1 1000).map fun k => Op.insert (10 * k))
        ++ [.insert 35, .get (1 / 2)]) = some s ∧
      s.count_ = 1001 ∧ s.buffer_ = [] ∧ (3, 35, 0) ∈ rmins 0 s.sample_ ∧
      ∀ r : ℕ, ((((List.range' 1 1000).map (10 * ·)) ++ [35]).insertionSort (· ≤ ·))[r - 1]? =
        some 35 → r = 4 := by
  obtain ⟨s, T, hrun, hq, hc, hb, hT, hs⟩ := run_tens
  let s₃ : CKMS ℕ := { s with
    max_ := if s.count = 0 then 35 else if s.max_ < 35 then 35 else s.max_
    buffer_ := s.buffer_ ++ [35] }
  have hins : s.insert 35 = some s₃ := insert_of_length_lt s 35 (by simp [hb, bufferSize])
  have hbatch := insertBatch_index_one (s := s₃) (v := 35) hs (by simp [s₃, hb]) (by decide)
    (by decide)
  let S : List (Item ℕ) := pass kDefaultQuantiles 0 (⟨20, 2, 0⟩ :: ⟨35, 1, 0⟩ :: ⟨40, 2, 1⟩ :: T)
  let s₄ : CKMS ℕ := { s₃ with count_ := s₃.count_ + 1, sample_ := S, buffer_ := [] }
  have hget : s₃.get (1 / 2) = some (s₄.query (1 / 2), s₄) := by
    rw [get_of_le (by simp [s₃, count, hb, hc, bufferSize]), settle, hbatch]
    simp [compress_eq, S, s₄, s₃, hq]
  refine ⟨s₄, ?_, by simp [s₄, s₃, hc], rfl, ?_, sorted_tens_position⟩
  · rw [run_append, hrun, Option.some_bind]
    simp only [CKMS.run, CKMS.step, hins, hget, Option.some_bind, Option.map_some']
  · show (3, 35, 0) ∈ rmins 0 S
    by_cases hmerge : (((2 : ℤ) + 1 + 0 : ℤ) : ℚ) ≤
        allowableError kDefaultQuantiles (0 + 2 + (⟨40, 2, 1⟩ :: T).length) (0 + 1)
    · rw [show S = _ from pass_merge kDefaultQuantiles hmerge]
      simp [rmins]
    · rw [show S = _ from pass_keep kDefaultQuantiles hmerge, pass_keep]
      · simp [rmins]
      · have := allowableError_default_two_lt (by omega : 0 + 1 + 2 + T.length ≤ 1001)
        push_cast
        norm_num at this ⊢
        linarith

end Medida.Stats.CKMS
