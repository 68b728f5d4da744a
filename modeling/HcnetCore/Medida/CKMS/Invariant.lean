import HcnetCore.Medida.CKMS.Query
import Mathlib.Algebra.BigOperators.Group.List

/-! The invariant of every reachable summary: sorted tuples with positive `g` summing to
`count_`, values drawn from those inserted since the last `reset()`, the buffer below 500,
and `count_` either zero or at least 500. Every call keeps it and none fails. -/

namespace Medida.Stats.CKMS
variable {α : Type} [LinearOrder α]

/-- What `insertBatch` and `compress` keep of a summary. -/
structure Summary (s : CKMS α) : Prop where
  sorted : SortedByValue s.sample_
  g_pos : ∀ t ∈ s.sample_, 0 < t.g
  sum_g : (s.sample_.map Item.g).sum = s.count_

theorem Summary.compress {s : CKMS α} (h : Summary s) :
    Summary { s with sample_ := pass s.quantiles_ 0 s.sample_ } where
  sorted := sortedByValue_iff.2 ((sortedByValue_iff.1 h.sorted).sublist (values_pass_sublist _ _ _))
  g_pos := g_pos_pass _ _ _ h.g_pos
  sum_g := by rw [sum_g_pass, h.sum_g]

theorem Summary.insertBatch {s : CKMS α} (h : Summary s) (hne : s.buffer_ ≠ []) :
    ∃ sample', s.insertBatch = some ({ s with
        count_ := s.count_ + s.buffer_.length, sample_ := sample', buffer_ := [] }, true) ∧
      Summary { s with count_ := s.count_ + s.buffer_.length, sample_ := sample', buffer_ := [] } ∧
      (values sample').Perm (values s.sample_ ++ s.buffer_) := by
  obtain ⟨sample', news, hbatch, hsorted, hperm, hvals, hg⟩ := insertBatch_spec s h.sorted hne
  have hvperm : (values sample').Perm (news.map Item.value ++ values s.sample_) := by
    simpa [values] using hperm.map Item.value
  refine ⟨sample', hbatch, ⟨hsorted, fun t ht => ?_, ?_⟩, ?_⟩
  · rcases List.mem_append.1 (hperm.subset ht) with ht | ht
    · rw [hg t ht]; exact Int.one_pos
    · exact h.g_pos t ht
  · have hsum := (hperm.map Item.g).sum_eq
    have hnews : (news.map Item.g).sum = news.length := by
      rw [List.map_congr_left hg]; simp
    rw [List.map_append, List.sum_append, hnews, h.sum_g] at hsum
    rw [hsum, ← hvals.length_eq, List.length_map]
    push_cast; ring
  · exact hvperm.trans (List.perm_append_comm.trans (List.Perm.append_left _ hvals))

/-- The invariant of a summary into which `xs` was inserted since the last `reset()`. -/
structure Inv (s : CKMS α) (xs : List α) extends Summary s : Prop where
  subperm : (values s.sample_ ++ s.buffer_).Subperm xs
  count_eq : s.count = xs.length
  count_zero_or : s.count_ = 0 ∨ bufferSize ≤ s.count_
  buffer_lt : s.buffer_.length < bufferSize
  max_eq : xs ≠ [] → s.max_ ∈ xs ∧ ∀ x ∈ xs, x ≤ s.max_
  sorted_cache : s.count_ = 0 → s.sizeWhenLastSorted_ ≤ s.buffer_.length ∧
    (s.sizeWhenLastSorted_ = s.buffer_.length → s.buffer_.Sorted (· ≤ ·))

theorem inv_new (quantiles : List Quantile) (m : α) : Inv (new quantiles m) [] where
  sorted := List.Pairwise.nil
  g_pos := by simp [new]
  sum_g := rfl
  subperm := by simp [new, values]
  count_eq := rfl
  count_zero_or := .inl rfl
  buffer_lt := by simp [new, bufferSize]
  max_eq := fun h => absurd rfl h
  sorted_cache := fun _ => ⟨le_rfl, fun _ => List.sorted_nil⟩

theorem inv_reset [Zero α] (s : CKMS α) : Inv s.reset [] := inv_new s.quantiles_ 0

/-- The running maximum of `insert` is the largest value inserted. -/
theorem max_insert {xs : List α} {m : α} (v : α) (hm : xs ≠ [] → m ∈ xs ∧ ∀ x ∈ xs, x ≤ m) :
    (if xs.length = 0 then v else if m < v then v else m) ∈ xs ++ [v] ∧
      ∀ x ∈ xs ++ [v], x ≤ if xs.length = 0 then v else if m < v then v else m := by
  rcases eq_or_ne xs [] with rfl | hx
  · simp
  · obtain ⟨hmem, hle⟩ := hm hx
    rw [if_neg (by simpa using hx)]
    split_ifs with hlt
    · exact ⟨by simp, fun x hx => (List.mem_append.1 hx).elim (fun hx => (hle x hx).trans hlt.le)
        fun hx => (List.mem_singleton.1 hx).le⟩
    · exact ⟨List.mem_append_left _ hmem, fun x hx => (List.mem_append.1 hx).elim (hle x)
        fun hx => (List.mem_singleton.1 hx) ▸ not_lt.1 hlt⟩

/-- A full buffer, or a summary-path query, settles the buffer into `sample_` and compresses:
the invariant is kept with the buffer emptied into the summary. -/
theorem inv_settle {s : CKMS α} {xs : List α} (h : Summary s)
    (hsub : (values s.sample_ ++ s.buffer_).Subperm xs) (hcount : s.count = xs.length)
    (hmax : xs ≠ [] → s.max_ ∈ xs ∧ ∀ x ∈ xs, x ≤ s.max_) (hfull : bufferSize ≤ s.count) :
    ∃ s', s.settle = some s' ∧
      s'.count_ = s.count ∧ s'.buffer_ = [] ∧ Inv s' xs := by
  obtain ⟨s1, b, hs1, hsum1, hperm1, hc1, hb1, hm1⟩ : ∃ s1 b, s.insertBatch = some (s1, b) ∧
      Summary s1 ∧ (values s1.sample_).Perm (values s.sample_ ++ s.buffer_) ∧
      s1.count_ = s.count ∧ s1.buffer_ = [] ∧ s1.max_ = s.max_ := by
    by_cases hb : s.buffer_ = []
    · exact ⟨s, false, insertBatch_of_buffer_nil s hb, h, by simp [hb], by simp [count, hb], hb, rfl⟩
    · obtain ⟨sample', hbt, hsum, hperm⟩ := h.insertBatch hb
      exact ⟨_, true, hbt, hsum, hperm, rfl, rfl, rfl⟩
  refine ⟨{ s1 with sample_ := pass s1.quantiles_ 0 s1.sample_ }, by simp [settle, hs1, compress_eq],
    hc1, hb1, ?_⟩
  exact { toSummary := hsum1.compress
          subperm := by
            simpa [hb1] using (values_pass_sublist _ _ _).subperm.trans (hperm1.subperm.trans hsub)
          count_eq := by simpa [count, hb1, hc1] using hcount
          count_zero_or := .inr (hc1 ▸ hfull)
          buffer_lt := by simp [hb1, bufferSize]
          max_eq := hm1 ▸ hmax
          sorted_cache := fun h0 => by
            have := hc1 ▸ hfull
            simp only at h0
            simp [h0, bufferSize] at this }

theorem Inv.insert {s : CKMS α} {xs : List α} (h : Inv s xs) (v : α) :
    ∃ s', s.insert v = some s' ∧ Inv s' (xs ++ [v]) := by
  have hm := max_insert v h.max_eq
  rw [← h.count_eq] at hm
  have hsub : (values s.sample_ ++ (s.buffer_ ++ [v])).Subperm (xs ++ [v]) := by
    simpa using (List.subperm_append_right [v]).2 h.subperm
  have hcount : s.count_ + (s.buffer_ ++ [v]).length = (xs ++ [v]).length := by
    simp [← h.count_eq, count, Nat.add_assoc]
  let s1 : CKMS α := { s with
    max_ := if s.count = 0 then v else if s.max_ < v then v else s.max_
    buffer_ := s.buffer_ ++ [v] }
  by_cases hfull : s.buffer_.length + 1 = bufferSize
  · obtain ⟨s', hs', -, -, hinv⟩ :=
      inv_settle (s := s1) ⟨h.sorted, h.g_pos, h.sum_g⟩ hsub hcount (fun _ => hm)
        (by simp [s1, count, hfull])
    exact ⟨s', by simpa [CKMS.insert, h.buffer_lt, hfull, settle] using hs', hinv⟩
  · refine ⟨s1, by simp [s1, CKMS.insert, h.buffer_lt, hfull], ?_⟩
    exact { toSummary := ⟨h.sorted, h.g_pos, h.sum_g⟩
            subperm := hsub
            count_eq := hcount
            count_zero_or := h.count_zero_or
            buffer_lt := by have := h.buffer_lt; simp only [List.length_append,
              List.length_singleton]; omega
            max_eq := fun _ => hm
            sorted_cache := fun h0 => ⟨(h.sorted_cache h0).1.trans (by simp),
              fun he => absurd he (by have := (h.sorted_cache h0).1; simp; omega)⟩ }

theorem Inv.sortBuffer {s : CKMS α} {xs : List α} (h : Inv s xs) : Inv s.sortBuffer xs := by
  unfold CKMS.sortBuffer
  split_ifs
  · have hperm := List.perm_insertionSort (· ≤ ·) s.buffer_
    exact { toSummary := ⟨h.sorted, h.g_pos, h.sum_g⟩
            subperm := ((hperm.append_left _).subperm).trans h.subperm
            count_eq := by simpa [count, List.length_insertionSort] using h.count_eq
            count_zero_or := h.count_zero_or
            buffer_lt := by simpa [List.length_insertionSort] using h.buffer_lt
            max_eq := h.max_eq
            sorted_cache := fun _ => by
              simpa [List.length_insertionSort] using List.sorted_insertionSort _ _ }
  · exact h

section Ops
variable [Zero α]

/-- Every `get` succeeds and keeps the invariant; it never changes `count()`. -/
theorem Inv.get {s : CKMS α} {xs : List α} (h : Inv s xs) (q : ℚ) :
    ∃ a s', s.get q = some (a, s') ∧ Inv s' xs := by
  by_cases hlt : s.count < bufferSize
  · by_cases hb : s.buffer_ = []
    · exact ⟨0, s, get_of_buffer_nil hlt hb q, h⟩
    rw [get_of_lt hlt hb]
    split_ifs with hq hi
    · exact ⟨0, _, rfl, h.sortBuffer⟩
    · have hn : 0 < s.buffer_.length := List.length_pos.2 hb
      have hidx := (exactIndex_bounds hn (by push_neg at hq; exact hq.1) (by
        push_neg at hq; exact hq.2)).2
      rw [List.getElem?_eq_getElem (by rwa [length_sortBuffer])]
      exact ⟨_, _, rfl, h.sortBuffer⟩
    · push_neg at hq
      exact absurd (exactIndex_bounds (List.length_pos.2 hb) hq.1 hq.2).1 hi
  · obtain ⟨s', hs', -, -, hinv⟩ := inv_settle h.toSummary h.subperm h.count_eq h.max_eq
      (by omega)
    exact ⟨_, s', by rw [get_of_le (by omega), hs']; rfl, hinv⟩

/-- The values inserted since the last `reset()`, as one call updates them. -/
def Op.sinceReset (xs : List α) : Op α → List α
  | .insert v => xs ++ [v]
  | .get _ => xs
  | .reset => []

theorem Inv.step {s : CKMS α} {xs : List α} (h : Inv s xs) (op : Op α) :
    ∃ s', s.step op = some s' ∧ Inv s' (Op.sinceReset xs op) := by
  cases op with
  | insert v => exact h.insert v
  | get q =>
    obtain ⟨a, s', hget, hinv⟩ := h.get q
    exact ⟨s', by simp [CKMS.step, hget], hinv⟩
  | reset => exact ⟨s.reset, rfl, inv_reset s⟩

theorem Inv.run {s : CKMS α} {xs : List α} (h : Inv s xs) (ops : List (Op α)) :
    ∃ s', s.run ops = some s' ∧ Inv s' (ops.foldl Op.sinceReset xs) := by
  induction ops generalizing s xs with
  | nil => exact ⟨s, rfl, h⟩
  | cons op ops ih =>
    obtain ⟨s1, hs1, h1⟩ := h.step op
    obtain ⟨s', hs', h'⟩ := ih h1
    exact ⟨s', by simp [CKMS.run, hs1, hs'], h'⟩

/-- Every run of `insert`, `get` and `reset` from construction succeeds, so every index the
loops of `insertBatch` and `compress` touch lies in `sample_`, and it ends in a state of the
invariant for the values inserted since the last `reset()`. -/
theorem ckms_reachable_invariant (quantiles : List Quantile) (m : α) (ops : List (Op α)) :
    ∃ s, (new quantiles m).run ops = some s ∧ Inv s (ops.foldl Op.sinceReset []) :=
  (inv_new quantiles m).run ops

end Ops

end Medida.Stats.CKMS
