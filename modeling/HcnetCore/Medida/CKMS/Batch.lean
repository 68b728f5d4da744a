import HcnetCore.Medida.CKMS.Compress

/-! The merge-insertion of `insertBatch`. Each sorted buffered value is placed after every
tuple of smaller value and before every tuple of larger value, so the tuples stay sorted and
gain one tuple with `g = 1` per buffered value, whatever `delta` each receives. -/

namespace Medida.Stats.CKMS
variable {α : Type}

/-- The order `sample_` is kept in. -/
def SortedByValue (sample : List (Item α)) [LE α] : Prop :=
  sample.Pairwise fun a b => a.value ≤ b.value

theorem insertIdx_eq_take_drop {β : Type} (a : β) :
    ∀ (l : List β) (n : ℕ), n ≤ l.length → l.insertIdx n a = l.take n ++ a :: l.drop n
  | l, 0, _ => by simp [List.insertIdx_zero]
  | [], _ + 1, h => by simp at h
  | b :: l, n + 1, h => by
    rw [List.insertIdx_succ_cons, insertIdx_eq_take_drop a l n (by simpa using h)]
    rfl

section Sorted
variable [LinearOrder α] {l : List (Item α)}

theorem SortedByValue.sublist {l' : List (Item α)} (hl : SortedByValue l) (h : l'.Sublist l) :
    SortedByValue l' := List.Pairwise.sublist h hl

theorem sortedByValue_iff : SortedByValue l ↔ (values l).Sorted (· ≤ ·) := by
  rw [SortedByValue, values, List.Sorted, List.pairwise_map]

theorem SortedByValue.le_of_mem_drop (hl : SortedByValue l) {i : ℕ} (hi : i < l.length)
    {y : Item α} (hy : y ∈ l.drop (i + 1)) : l[i].value ≤ y.value := by
  have hd := hl.sublist (List.drop_sublist i l)
  rw [List.drop_eq_getElem_cons hi, SortedByValue, List.pairwise_cons] at hd
  exact hd.1 y hy

theorem SortedByValue.insertIdx {n : ℕ} {t : Item α} (hl : SortedByValue l) (hn : n ≤ l.length)
    (hlo : ∀ y ∈ l.take n, y.value ≤ t.value) (hhi : ∀ y ∈ l.drop n, t.value ≤ y.value) :
    SortedByValue (l.insertIdx n t) := by
  rw [insertIdx_eq_take_drop t l n hn]
  have h := hl
  rw [← List.take_append_drop n l, SortedByValue, List.pairwise_append] at h
  rw [SortedByValue, List.pairwise_append]
  refine ⟨h.1, List.pairwise_cons.2 ⟨hhi, h.2.1⟩, fun a ha b hb => ?_⟩
  rcases List.mem_cons.1 hb with rfl | hb
  · exact hlo a ha
  · exact h.2.2 a ha b hb

end Sorted

section Loop
variable [LinearOrder α]

/-- The scan stops at the first tuple from `item` on whose value is not below `v`, or at the
last tuple. -/
theorem advanceItem_spec (v : α) (sample : List (Item α)) (fuel item : ℕ)
    (hitem : item < sample.length) (hfuel : fuel = sample.length - (item + 1)) :
    ∃ item', ∃ h : item' < sample.length, advanceItem v sample fuel item (item + 1) =
        some (item', item' + 1) ∧ item ≤ item' ∧
      (∀ y ∈ (sample.take item').drop item, y.value < v) ∧
      (item' + 1 < sample.length → v ≤ sample[item'].value) := by
  induction fuel generalizing item with
  | zero =>
    exact ⟨item, hitem, by rw [advanceItem], le_rfl, by simp [List.drop_take], fun h => by omega⟩
  | succ fuel ih =>
    have hnext : item + 1 < sample.length := by omega
    by_cases hlt : sample[item].value < v
    · obtain ⟨item', h', hadv, hle, hbelow, hstop⟩ := ih (item + 1) hnext (by omega)
      refine ⟨item', h', ?_, by omega, ?_, hstop⟩
      · rw [advanceItem, if_pos hnext, List.getElem?_eq_getElem hitem]
        simp [hlt, hadv]
      · intro y hy
        rw [List.drop_eq_getElem_cons (by simp; omega), List.getElem_take] at hy
        rcases List.mem_cons.1 hy with rfl | hy
        · exact hlt
        · exact hbelow y hy
    · refine ⟨item, hitem, ?_, le_rfl, by simp [List.drop_take], fun _ => not_lt.1 hlt⟩
      rw [advanceItem, if_pos hnext, List.getElem?_eq_getElem hitem]
      simp [hlt]

/-- The body of the loop inserts `v` where it keeps the tuples sorted. -/
theorem insertPos_bounds {sample : List (Item α)} (hs : SortedByValue sample) {v : α}
    {item item' : ℕ} (h' : item' < sample.length) (hle : item ≤ item')
    (hlo : ∀ y ∈ sample.take item, y.value ≤ v)
    (hbelow : ∀ y ∈ (sample.take item').drop item, y.value < v)
    (hstop : item' + 1 < sample.length → v ≤ sample[item'].value) :
    (if v < sample[item'].value then item' else item' + 1) ≤ sample.length ∧
      (∀ y ∈ sample.take (if v < sample[item'].value then item' else item' + 1), y.value ≤ v) ∧
      (∀ y ∈ sample.drop (if v < sample[item'].value then item' else item' + 1), v ≤ y.value) := by
  have htake : ∀ y ∈ sample.take item', y.value ≤ v := by
    intro y hy
    rw [← List.take_append_drop item (sample.take item'), List.take_take, min_eq_left hle,
      List.mem_append] at hy
    exact hy.elim (hlo y) fun hy => (hbelow y hy).le
  split_ifs with hlt
  · refine ⟨h'.le, htake, fun y hy => ?_⟩
    rw [List.drop_eq_getElem_cons h', List.mem_cons] at hy
    exact hy.elim (fun h => h ▸ hlt.le) fun hy => hlt.le.trans (hs.le_of_mem_drop h' hy)
  · refine ⟨h', fun y hy => ?_, fun y hy => ?_⟩
    · rw [List.take_succ, List.getElem?_eq_getElem h', Option.toList_some, List.mem_append,
        List.mem_singleton] at hy
      exact hy.elim (htake y) fun h => h ▸ not_lt.1 hlt
    · have hmore : item' + 1 < sample.length := by
        by_contra hc
        rw [List.drop_eq_nil_of_le (by omega)] at hy
        exact List.not_mem_nil y hy
      exact (hstop hmore).trans (hs.le_of_mem_drop h' hy)

/-- The merge-insertion loop adds one tuple of `g = 1` per value and keeps `sample` sorted. -/
theorem insertBatchLoop_spec (quantiles : List Quantile) (vs : List α) (sample : List (Item α))
    (count item : ℕ) (hvs : vs.Sorted (· ≤ ·)) (hs : SortedByValue sample)
    (hitem : item < sample.length) (hlo : ∀ y ∈ sample.take item, ∀ w ∈ vs, y.value ≤ w) :
    ∃ sample' news, insertBatchLoop quantiles vs sample count item (item + 1) =
        some (sample', count + vs.length) ∧ SortedByValue sample' ∧
      sample'.Perm (news ++ sample) ∧ news.map Item.value = vs ∧ ∀ t ∈ news, t.g = 1 := by
  induction vs generalizing sample count item with
  | nil => exact ⟨sample, [], by simp [insertBatchLoop], hs, by simp, rfl, by simp⟩
  | cons v vs ih =>
    obtain ⟨item', h', hadv, hle, hbelow, hstop⟩ := advanceItem_spec v sample _ item hitem rfl
    have hv : ∀ w ∈ vs, v ≤ w := List.rel_of_sorted_cons hvs
    obtain ⟨hp, hplo, hphi⟩ := insertPos_bounds hs h' hle
      (fun y hy => hlo y hy v (List.mem_cons_self _ _)) hbelow hstop
    generalize hpdef : (if v < sample[item'].value then item' else item' + 1) = p at hp hplo hphi
    let t : Item α := ⟨v, 1, if (p : ℤ) - 1 = 0 ∨ p + 1 = sample.length then 0
      else ⌊allowableError quantiles sample.length (p + 1)⌋ + 1⟩
    have hins := insertIdx_eq_take_drop t sample p hp
    obtain ⟨sample', news, hloop, hsorted, hperm, hvals, hg⟩ :=
      ih (sample.insertIdx p t) (count + 1) p (List.sorted_cons.1 hvs).2
        (hs.insertIdx hp hplo hphi) (by rw [List.length_insertIdx _ _ hp]; omega)
        (fun y hy w hw => by
          rw [hins, List.take_append_of_le_length (by simp; omega),
            List.take_of_length_le (by simp)] at hy
          exact (hplo y hy).trans (hv w hw))
    refine ⟨sample', t :: news, ?_, hsorted, ?_, by simp [hvals, t], ?_⟩
    · rw [insertBatchLoop, hadv]
      simp only [Option.bind_eq_bind, Option.some_bind, List.getElem?_eq_getElem h',
        Nat.add_sub_cancel, ← apply_ite (· - 1), hpdef]
      rw [if_pos hp]
      exact hloop.trans (by simp; omega)
    · exact hperm.trans (((List.perm_insertIdx t sample hp).append_left news).trans List.perm_middle)
    · exact List.forall_mem_cons.2 ⟨rfl, hg⟩

theorem insertBatch_of_buffer_nil (s : CKMS α) (h : s.buffer_ = []) :
    s.insertBatch = some (s, false) := by
  simp [insertBatch, h]

/-- `insertBatch` moves every buffered value into `sample_` as a tuple with `g = 1`. -/
theorem insertBatch_spec (s : CKMS α) (hs : SortedByValue s.sample_)
    (hne : s.buffer_ ≠ []) :
    ∃ sample' news, s.insertBatch = some ({ s with
        count_ := s.count_ + s.buffer_.length, sample_ := sample', buffer_ := [] }, true) ∧
      SortedByValue sample' ∧
      sample'.Perm (news ++ s.sample_) ∧ (news.map Item.value).Perm s.buffer_ ∧
      ∀ t ∈ news, t.g = 1 := by
  have hperm := List.perm_insertionSort (· ≤ ·) s.buffer_
  have hsorted := List.sorted_insertionSort (· ≤ ·) s.buffer_
  obtain ⟨b, bs, hsort⟩ : ∃ b bs, s.buffer_.insertionSort (· ≤ ·) = b :: bs := by
    cases h : s.buffer_.insertionSort (· ≤ ·) with
    | nil => rw [h] at hperm; exact absurd hperm.symm.eq_nil hne
    | cons b bs => exact ⟨b, bs, rfl⟩
  rw [hsort] at hperm hsorted
  have hlen : s.buffer_.length = bs.length + 1 := by rw [← hperm.length_eq]; rfl
  by_cases hemp : s.sample_ = []
  · obtain ⟨sample', news, hloop, hsort', hperm', hvals, hg⟩ :=
      insertBatchLoop_spec s.quantiles_ bs [⟨b, 1, 0⟩] (s.count_ + 1) 0 hsorted.of_cons
        (List.pairwise_singleton _ _) (by simp) (by simp)
    refine ⟨sample', news ++ [⟨b, 1, 0⟩], ?_, hsort', by simpa [hemp] using hperm', ?_, ?_⟩
    · simp only [insertBatch, hsort, hemp, if_true, Option.bind_eq_bind, hloop, Option.some_bind]
      rw [hlen, Nat.add_assoc, Nat.add_comm 1]
    · simpa [hvals] using List.perm_append_singleton b bs |>.trans hperm
    · simpa using fun t ht => ht.elim (hg t) fun h => h ▸ rfl
  · obtain ⟨sample', news, hloop, hsort', hperm', hvals, hg⟩ :=
      insertBatchLoop_spec s.quantiles_ (b :: bs) s.sample_ s.count_ 0 hsorted hs
        (List.length_pos.2 hemp) (by simp)
    refine ⟨sample', news, ?_, hsort', hperm', by rw [hvals]; exact hperm, hg⟩
    simp only [insertBatch, hsort, hemp, if_false, Option.bind_eq_bind, hloop, Option.some_bind]
    rw [hlen, List.length_cons]

/-- `insertBatch` is a sorted merge: from any state with sorted tuples and buffered values, the
tuples' values become the sorted list of the old tuples' values and the buffered values, every
old tuple stays with its `g` and `delta`, each buffered value gets a tuple of weight one, and
`count_` counts them. -/
theorem insertBatch_merges (s : CKMS α) (hs : SortedByValue s.sample_) (hne : s.buffer_ ≠ []) :
    ∃ sample' news, s.insertBatch = some ({ s with
        count_ := s.count_ + s.buffer_.length, sample_ := sample', buffer_ := [] }, true) ∧
      values sample' = (values s.sample_ ++ s.buffer_).insertionSort (· ≤ ·) ∧
      sample'.Perm (news ++ s.sample_) ∧ ∀ t ∈ news, t.g = 1 := by
  obtain ⟨sample', news, hbatch, hsorted, hperm, hvals, hg⟩ := insertBatch_spec s hs hne
  have hv : (values sample').Perm (news.map Item.value ++ values s.sample_) := by
    simpa [values] using hperm.map Item.value
  refine ⟨sample', news, hbatch, List.eq_of_perm_of_sorted ?_ (sortedByValue_iff.1 hsorted)
    (List.sorted_insertionSort _ _), hperm, hg⟩
  exact hv.trans ((hvals.append_right _).trans List.perm_append_comm) |>.trans
    (List.perm_insertionSort _ _).symm

theorem insertBatch_merges_example :
    SortedByValue ([⟨1, 1, 0⟩, ⟨5, 2, 1⟩] : List (Item ℕ)) ∧ [3, 0, 7] ≠ ([] : List ℕ) ∧
    ∃ sample' news, (⟨kDefaultQuantiles, 3, [⟨1, 1, 0⟩, ⟨5, 2, 1⟩], [3, 0, 7], 0, 7⟩ : CKMS ℕ).insertBatch =
        some (⟨kDefaultQuantiles, 3 + [3, 0, 7].length, sample', [], 0, 7⟩, true) ∧
      values sample' = (values [⟨1, 1, 0⟩, ⟨5, 2, 1⟩] ++ [3, 0, 7]).insertionSort (· ≤ ·) ∧
      sample'.Perm (news ++ [⟨1, 1, 0⟩, ⟨5, 2, 1⟩]) ∧ ∀ t ∈ news, t.g = 1 :=
  ⟨by unfold SortedByValue; decide, by decide,
    insertBatch_merges ⟨kDefaultQuantiles, 3, [⟨1, 1, 0⟩, ⟨5, 2, 1⟩], [3, 0, 7], 0, 7⟩
      (by unfold SortedByValue; decide) (by decide)⟩

end Loop

end Medida.Stats.CKMS
