import HcnetCore.Medida.CKMS.Rank

/-! Values inserted in order from construction. The 500th insert sorts nothing: the batch
appends the values as tuples with `g = 1` and the `delta` of their index, and the summary is
one `compress` pass of that batch. Over such tuples `rmin` is the index plus one, which lets
the walk of `get` and the passes be followed index by index. -/

namespace Medida.Stats.CKMS
variable {α : Type}

section Batch
variable [LinearOrder α]

/-- The `delta` `insertBatch` gives a value it appends to a sample of `idx` tuples. -/
def batchDelta (quantiles : List Quantile) (idx : ℕ) : ℤ :=
  if idx ≤ 1 then 0 else ⌊allowableError quantiles idx (idx + 1)⌋ + 1

theorem batchDelta_of_le_one (quantiles : List Quantile) {k : ℕ} (hk : k ≤ 1) :
    batchDelta quantiles k = 0 := if_pos hk

/-- The tuples one batch appends, from index `idx` on, for values that all lie above the
sample. -/
def batchItems (quantiles : List Quantile) : ℕ → List α → List (Item α)
  | _, [] => []
  | idx, v :: vs => ⟨v, 1, batchDelta quantiles idx⟩ :: batchItems quantiles (idx + 1) vs

/-- Sorted values above every tuple are appended in order, each with `g = 1`. -/
theorem insertBatchLoop_sorted (quantiles : List Quantile) (vs : List α) (sample : List (Item α))
    (count item : ℕ) (hlen : sample.length = item + 1)
    (hle : ∀ t ∈ sample.getLast?, ∀ v ∈ vs, t.value ≤ v) (hs : vs.Sorted (· ≤ ·)) :
    insertBatchLoop quantiles vs sample count item (item + 1) =
      some (sample ++ batchItems quantiles (item + 1) vs, count + vs.length) := by
  induction vs generalizing sample count item with
  | nil => simp [insertBatchLoop, batchItems]
  | cons v vs ih =>
    obtain ⟨t, ht⟩ : ∃ t, sample[item]? = some t :=
      ⟨sample[item], List.getElem?_eq_getElem (by omega)⟩
    have hlast : sample.getLast? = some t := by rw [List.getLast?_eq_getElem?, hlen, ← ht]; rfl
    have hv : ¬ v < t.value := not_lt.2 (hle t hlast v (List.mem_cons_self _ _))
    have hadv : advanceItem v sample (sample.length - (item + 1)) item (item + 1) =
        some (item, item + 1) := by rw [hlen, Nat.sub_self]; rfl
    have hdelta : (if ((item + 1 : ℕ) : ℤ) - 1 = 0 ∨ item + 1 + 1 = item + 1 then 0
        else ⌊allowableError quantiles (item + 1) (((item + 1 : ℕ) : ℤ) + 1)⌋ + 1) =
          batchDelta quantiles (item + 1) := by
      simp only [batchDelta]
      split_ifs <;> first | rfl | omega
    have hins : sample.insertIdx (item + 1) ⟨v, 1, batchDelta quantiles (item + 1)⟩ =
        sample ++ [⟨v, 1, batchDelta quantiles (item + 1)⟩] := by
      rw [← hlen, List.insertIdx_length_self]
    have key := ih (sample ++ [⟨v, 1, batchDelta quantiles (item + 1)⟩]) (count + 1) (item + 1)
      (by simp [hlen]) (fun t' ht' w hw => by
        simp at ht'
        subst ht'
        exact List.rel_of_sorted_cons hs w hw) (List.sorted_cons.1 hs).2
    rw [insertBatchLoop, hadv]
    simp only [Option.bind_eq_bind, Option.some_bind, ht, if_neg hv, hdelta, hlen, le_refl,
      if_true, hins, key, batchItems, List.append_assoc, List.singleton_append, List.length_cons,
      Option.some.injEq, Prod.mk.injEq, true_and]
    omega

/-- A sorted buffer into an empty summary: the batch is the buffer in order. -/
theorem insertBatch_sorted {s : CKMS α} (h0 : s.sample_ = []) (hne : s.buffer_ ≠ [])
    (hs : s.buffer_.Sorted (· ≤ ·)) :
    s.insertBatch = some ({ s with
      count_ := s.count_ + s.buffer_.length
      sample_ := batchItems s.quantiles_ 0 s.buffer_
      buffer_ := [] }, true) := by
  obtain ⟨b, bs, hb⟩ := List.exists_cons_of_ne_nil hne
  rw [hb] at hs
  have hloop := insertBatchLoop_sorted s.quantiles_ bs [⟨b, 1, 0⟩] (s.count_ + 1) 0 rfl
    (by simpa using List.rel_of_sorted_cons hs) hs.of_cons
  simp only [insertBatch, hb, hs.insertionSort_eq, h0, if_true, Option.bind_eq_bind, hloop,
    Option.some_bind]
  simp [batchItems, batchDelta]
  omega

/-- The scan for a value above every tuple runs to the last one. -/
theorem advanceItem_above {v : α} {sample : List (Item α)} (hlt : ∀ t ∈ sample, t.value < v)
    {item : ℕ} (hitem : item < sample.length) :
    advanceItem v sample (sample.length - (item + 1)) item (item + 1) =
      some (sample.length - 1, sample.length) := by
  obtain ⟨item', h', hadv, -, -, hstop⟩ := advanceItem_spec v sample _ item hitem rfl
  have hend : item' + 1 = sample.length := by
    by_contra hne
    exact absurd (hstop (by omega)) (not_le.2 (hlt _ (List.getElem_mem _)))
  rw [hadv, ← hend, Nat.add_sub_cancel]

/-- Sorted values above every tuple are appended in order, wherever the scan starts. -/
theorem insertBatchLoop_above (quantiles : List Quantile) {vs : List α} {sample : List (Item α)}
    (count : ℕ) (hne : sample ≠ []) (hlt : ∀ t ∈ sample, ∀ v ∈ vs, t.value < v)
    (hs : vs.Sorted (· ≤ ·)) :
    insertBatchLoop quantiles vs sample count 0 1 =
      some (sample ++ batchItems quantiles sample.length vs, count + vs.length) := by
  have hpos := List.length_pos.2 hne
  have hL : sample.length - 1 + 1 = sample.length := Nat.succ_pred_eq_of_pos hpos
  cases vs with
  | nil => simp [insertBatchLoop, batchItems]
  | cons v vs =>
    have key := insertBatchLoop_sorted quantiles (v :: vs) sample count (sample.length - 1) hL.symm
      (fun t ht w hw => (hlt t (List.mem_of_mem_getLast? ht) w hw).le) hs
    have hadv := advanceItem_above (fun t ht => hlt t ht v (List.mem_cons_self _ _)) hpos
    have hend : advanceItem v sample (sample.length - sample.length) (sample.length - 1)
        sample.length = some (sample.length - 1, sample.length) := by rw [Nat.sub_self]; rfl
    rw [hL] at key
    rw [← key, insertBatchLoop, insertBatchLoop, hend]
    exact congrArg (· >>= _) hadv

/-- A sorted buffer above every tuple of a nonempty summary: the batch appends it in order. -/
theorem insertBatch_above {s : CKMS α} (hne : s.sample_ ≠ []) (hb : s.buffer_ ≠ [])
    (hs : s.buffer_.Sorted (· ≤ ·)) (hlt : ∀ t ∈ s.sample_, ∀ v ∈ s.buffer_, t.value < v) :
    s.insertBatch = some ({ s with
      count_ := s.count_ + s.buffer_.length
      sample_ := s.sample_ ++ batchItems s.quantiles_ s.sample_.length s.buffer_
      buffer_ := [] }, true) := by
  obtain ⟨b, bs, hbs⟩ := List.exists_cons_of_ne_nil hb
  have hloop := insertBatchLoop_above s.quantiles_ s.count_ hne hlt hs
  rw [hbs] at hs hloop
  simp only [insertBatch, hbs, hs.insertionSort_eq, if_neg hne, Option.bind_eq_bind, hloop,
    Option.some_bind]

end Batch

section Run
variable [LinearOrder α]

theorem insert_of_length_lt (s : CKMS α) (v : α) (h : s.buffer_.length + 1 < bufferSize) :
    s.insert v = some { s with
      max_ := if s.count = 0 then v else if s.max_ < v then v else s.max_
      buffer_ := s.buffer_ ++ [v] } := by
  simp [CKMS.insert, show s.buffer_.length < bufferSize by omega, Nat.ne_of_lt h]

theorem insert_of_length_eq (s : CKMS α) (v : α) (h : s.buffer_.length + 1 = bufferSize) :
    s.insert v = settle { s with
      max_ := if s.count = 0 then v else if s.max_ < v then v else s.max_
      buffer_ := s.buffer_ ++ [v] } := by
  simp [CKMS.insert, show s.buffer_.length < bufferSize by omega, h, settle]

variable [Zero α]


theorem run_append (s : CKMS α) (ops ops' : List (Op α)) :
    s.run (ops ++ ops') = (s.run ops).bind fun s => s.run ops' := by
  induction ops generalizing s with
  | nil => rfl
  | cons op ops ih =>
    simp only [List.cons_append, CKMS.run]
    cases s.step op with
    | none => rfl
    | some s' => exact ih s'

/-- Fewer than `bufferSize` inserts only buffer their values. -/
theorem run_inserts_of_lt (s : CKMS α) (xs : List α) (h : s.buffer_.length + xs.length < bufferSize) :
    ∃ m, s.run (xs.map Op.insert) = some { s with max_ := m, buffer_ := s.buffer_ ++ xs } := by
  induction xs generalizing s with
  | nil => exact ⟨s.max_, by simp [CKMS.run]⟩
  | cons x xs ih =>
    simp only [List.length_cons] at h
    let s1 : CKMS α := { s with
      max_ := if s.count = 0 then x else if s.max_ < x then x else s.max_
      buffer_ := s.buffer_ ++ [x] }
    obtain ⟨m, hm⟩ := ih s1 (by simp [s1]; omega)
    exact ⟨m, by simp [CKMS.run, CKMS.step, insert_of_length_lt s x (by omega), hm, s1]⟩

/-- `bufferSize` inserts into an empty buffer fill it, and the last one settles it. -/
theorem run_full_buffer (s : CKMS α) (hb : s.buffer_ = []) (xs : List α)
    (hlen : xs.length = bufferSize) :
    ∃ m, s.run (xs.map Op.insert) = settle { s with max_ := m, buffer_ := xs } := by
  have hne : xs ≠ [] := by rintro rfl; simp [bufferSize] at hlen
  have hdl : xs.dropLast.length + 1 = bufferSize := by rw [List.length_dropLast, hlen]; rfl
  obtain ⟨m₁, hm₁⟩ := run_inserts_of_lt s xs.dropLast (by simp only [hb, List.length_nil]; omega)
  rw [← List.dropLast_append_getLast hne, List.map_append, run_append, hm₁]
  simp only [Option.some_bind, List.map_cons, List.map_nil, CKMS.run, CKMS.step]
  rw [insert_of_length_eq _ _ (by simpa [hb] using hdl)]
  exact ⟨_, by simp only [Option.bind_some, hb, List.nil_append]; rfl⟩

/-- `bufferSize` values inserted in order from construction: one batch appends them all, and
one pass compresses the result. -/
theorem run_sorted_batch (quantiles : List Quantile) (m : α) (xs : List α)
    (hs : xs.Sorted (· ≤ ·)) (hlen : xs.length = bufferSize) :
    ∃ s, (new quantiles m).run (xs.map Op.insert) = some s ∧ s.quantiles_ = quantiles ∧
      s.count_ = bufferSize ∧ s.sample_ = pass quantiles 0 (batchItems quantiles 0 xs) ∧
      s.buffer_ = [] := by
  obtain ⟨m₁, hm₁⟩ := run_full_buffer (new quantiles m) rfl xs hlen
  rw [hm₁, settle, insertBatch_sorted rfl (by rintro rfl; simp [bufferSize] at hlen) hs]
  simp only [Option.some_bind, compress_eq]
  exact ⟨_, rfl, rfl, by simp [new, hlen], rfl, rfl⟩

/-- `bufferSize` sorted values above a nonempty summary: the batch appends them, and one pass
compresses the result. -/
theorem run_batch_above {s : CKMS α} (hb : s.buffer_ = []) (hne : s.sample_ ≠ []) (xs : List α)
    (hs : xs.Sorted (· ≤ ·)) (hlen : xs.length = bufferSize)
    (hlt : ∀ t ∈ s.sample_, ∀ v ∈ xs, t.value < v) :
    ∃ s', s.run (xs.map Op.insert) = some s' ∧ s'.quantiles_ = s.quantiles_ ∧
      s'.count_ = s.count_ + bufferSize ∧ s'.buffer_ = [] ∧
      s'.sample_ = pass s.quantiles_ 0 (s.sample_ ++ batchItems s.quantiles_ s.sample_.length xs) := by
  obtain ⟨m₁, hm₁⟩ := run_full_buffer s hb xs hlen
  rw [hm₁, settle, insertBatch_above (s := { s with max_ := m₁, buffer_ := xs }) hne
    (by rintro rfl; simp [bufferSize] at hlen) hs hlt]
  simp only [Option.some_bind, compress_eq]
  exact ⟨_, rfl, rfl, by simp [hlen], rfl, rfl⟩

end Run

section Ranges

/-- The tuples of the values `f (i + 1), ..., f (i + n)` appended from index `i`. -/
theorem batchItems_map_range' (quantiles : List Quantile) (f : ℕ → α) (i n : ℕ) :
    batchItems quantiles i ((List.range' (i + 1) n).map f) =
      (List.range' i n).map fun k => (⟨f (k + 1), 1, batchDelta quantiles k⟩ : Item α) := by
  induction n generalizing i with
  | zero => rfl
  | succ n ih => rw [List.range'_succ, List.range'_succ, List.map_cons, batchItems, ih]; rfl

/-- A pass over tuples none of whose neighbours may merge leaves them as they are. -/
theorem pass_map_range' (quantiles : List Quantile) (f : ℕ → Item α) (a n : ℕ)
    (h : ∀ k, a ≤ k → k + 1 < a + n → ¬((((f k).g + (f (k + 1)).g + (f (k + 1)).delta : ℤ) : ℚ) ≤
      allowableError quantiles (a + n) (k + 1))) :
    pass quantiles a ((List.range' a n).map f) = (List.range' a n).map f := by
  induction n generalizing a with
  | zero => simp [pass]
  | succ n ih =>
    cases n with
    | zero => simp [pass]
    | succ n =>
      have hkeep := h a le_rfl (by omega)
      have hrest := ih (a + 1) fun k hk hk' => by
        rw [show a + 1 + (n + 1) = a + (n + 1 + 1) by omega]
        exact h k (by omega) (by omega)
      rw [List.range'_succ, List.map_cons] at hrest
      rw [List.range'_succ, List.map_cons, List.range'_succ, List.map_cons, pass_keep quantiles
        (by rwa [List.length_map, List.length_range', show a + 2 + n = a + (n + 1 + 1) by omega]),
        hrest]

variable (f : ℕ → Item α) (hg : ∀ k, (f k).g = 1)
include hg

end Ranges

section NegativeError

/-! The single target `(1/1000, -1/100)`. For every rank from 1 on and every size below
`1000 * rank` it allows `-20 * rank`, whatever the size: a pass then merges a pair exactly when
`g + g + delta` lies at or below `-20 * (done + 1)`, and the first tuples of each pass over the
batch of `1, ..., 500` can be followed by hand. -/

end NegativeError

end Medida.Stats.CKMS
