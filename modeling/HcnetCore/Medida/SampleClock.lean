import HcnetCore.Medida.CKMSSample

/-! `CKMSSample` when the caller rule is not kept. The clock may go back a little, into the
previous window, where `AdvanceWindows` drops the call, or a lot, where it empties both windows
and realigns the current one; it may also stand before the epoch. Whatever the timestamps, no
call fails, the current window starts on a multiple of the window size, and both windows stay
`CKMS` summaries. While the timestamps stay within the previous and the current window the
windows do not move: the previous window, which every snapshot timed in the current window
reports, stays as it is, and the current window takes exactly the updates timed in it. -/

namespace Medida.Stats.CKMSSample
open CKMS

/-- What every state keeps, whatever the timestamps of the calls that reached it, `log` being the
updates since the last `clear()`: the window size, a current window aligned on it, and two `CKMS`
summaries of values updated since then, no update counted in both. -/
structure Sound (w : ℕ) (log : List (ℤ × ℤ)) (s : CKMSSample) : Prop where
  window_size : s.window_size_ = w
  dvd_begin : (w : ℤ) ∣ s.cur_window_begin_
  fed : ∃ xs ys, Inv s.cur_window_ xs ∧ Inv s.prev_window_ ys ∧
    (xs ++ ys).Subperm (log.map fun p => (p.1 : ℚ))

theorem sound_new (w : ℕ) (m₁ m₂ : ℚ) : Sound w [] (new w m₁ m₂) :=
  ⟨rfl, dvd_zero _, [], [], inv_new _ _, inv_new _ _, List.nil_subperm⟩

/-- `time - time % window_size_`, with the truncating `%` of C++, is a multiple of the window
size, for times before the epoch too. -/
theorem dvd_calculateCurrentWindowStartingPoint (s : CKMSSample) (t : ℤ) :
    (s.window_size_ : ℤ) ∣ s.calculateCurrentWindowStartingPoint t :=
  ⟨_, (eq_sub_of_add_eq' (Int.tmod_add_tdiv t s.window_size_)).symm⟩

variable {w : ℕ} {log : List (ℤ × ℤ)} {s : CKMSSample}

theorem Sound.advance (h : Sound w log s) (t : ℤ) : Sound w log (s.advanceWindows t).2 := by
  have hw := h.window_size
  obtain ⟨xs, ys, hxs, -, hsub⟩ := h.fed
  unfold advanceWindows
  split_ifs
  · exact h
  · exact h
  · exact ⟨hw, dvd_add h.dvd_begin (hw ▸ dvd_rfl),
      [], xs, inv_reset _, hxs, (List.sublist_append_left xs ys).subperm.trans hsub⟩
  · exact ⟨hw, hw ▸ dvd_calculateCurrentWindowStartingPoint s t,
      [], [], inv_reset _, inv_reset _, List.nil_subperm⟩

theorem Sound.clear (h : Sound w log s) : Sound w [] s.clear :=
  ⟨h.window_size, dvd_zero _, [], [], inv_reset _, inv_reset _, List.nil_subperm⟩

theorem Sound.update (h : Sound w log s) (v t : ℤ) :
    ∃ s', s.update v t = some s' ∧ Sound w (log ++ [(v, t)]) s' := by
  have ha := h.advance t
  have hlog : (log.map fun p => (p.1 : ℚ)).Subperm ((log ++ [(v, t)]).map fun p => (p.1 : ℚ)) :=
    (by simp : (log.map fun p => (p.1 : ℚ)).Sublist _).subperm
  rcases hadv : s.advanceWindows t with ⟨_ | _, s₁⟩ <;> rw [hadv] at ha
  · obtain ⟨xs, ys, hxs, hys, hsub⟩ := ha.fed
    exact ⟨s₁, by simp [CKMSSample.update, hadv],
      ha.window_size, ha.dvd_begin, xs, ys, hxs, hys, hsub.trans hlog⟩
  · obtain ⟨xs, ys, hxs, hys, hsub⟩ := ha.fed
    obtain ⟨c, hc, hinv⟩ := hxs.insert v
    refine ⟨{ s₁ with cur_window_ := c }, by simp [CKMSSample.update, hadv, hc],
      ha.window_size, ha.dvd_begin, _, ys, hinv, hys, ?_⟩
    have hperm : (xs ++ [(v : ℚ)] ++ ys).Perm ((xs ++ ys) ++ [(v : ℚ)]) := by
      simpa using List.perm_middle.trans (List.perm_append_singleton (v : ℚ) (xs ++ ys)).symm
    exact hperm.subperm_right.2 (by simpa using (List.subperm_append_right [(v : ℚ)]).2 hsub)

/-- A snapshot reports a summary of values updated since the last `clear()`, at any time: the
previous window, or for a dropped call a fresh `CKMS()`. -/
theorem Sound.makeSnapshot (h : Sound w log s) (t : ℤ) (divisor : ℕ) :
    ∃ c d zs, (s.makeSnapshot t divisor).1 = .ckms ⟨c, d⟩ ∧ Inv c zs ∧
      zs.Subperm (log.map fun p => (p.1 : ℚ)) := by
  have ha := h.advance t
  rcases hadv : s.advanceWindows t with ⟨_ | _, s₁⟩ <;> rw [hadv] at ha
  · exact ⟨.new kDefaultQuantiles 0, 1, [], by simp [CKMSSample.makeSnapshot, hadv],
      inv_new _ _, List.nil_subperm⟩
  · obtain ⟨xs, ys, -, hys, hsub⟩ := ha.fed
    exact ⟨s₁.prev_window_, divisor, ys, by simp [CKMSSample.makeSnapshot, hadv], hys,
      (List.sublist_append_right xs ys).subperm.trans hsub⟩

theorem Sound.step (h : Sound w log s) (call : Call) :
    ∃ s', s.step call = some s' ∧ Sound w (Call.sinceClear log call) s' := by
  cases call with
  | update v t => exact h.update v t
  | makeSnapshot t divisor =>
    refine ⟨_, rfl, ?_⟩
    unfold CKMSSample.makeSnapshot
    split <;> simpa [*] using h.advance t
  | size t =>
    refine ⟨_, rfl, ?_⟩
    unfold CKMSSample.size CKMSSample.makeSnapshot
    split <;> simpa [*] using h.advance t
  | clear => exact ⟨_, rfl, h.clear⟩

theorem Sound.run (h : Sound w log s) (calls : List Call) :
    ∃ s', s.run calls = some s' ∧ Sound w (calls.foldl Call.sinceClear log) s' := by
  induction calls generalizing s log with
  | nil => exact ⟨s, rfl, h⟩
  | cons call calls ih =>
    obtain ⟨s₁, hs₁, h₁⟩ := h.step call
    obtain ⟨s', hs', h'⟩ := ih h₁
    exact ⟨s', by simp [CKMSSample.run, hs₁, hs'], h'⟩

section WindowPair

theorem advanceWindows_of_current {t : ℤ} (h₁ : s.cur_window_begin_ ≤ t)
    (h₂ : t < s.cur_window_begin_ + s.window_size_) : s.advanceWindows t = (true, s) := by
  simp [advanceWindows, h₁, h₂]

theorem advanceWindows_of_previous {t : ℤ} (h₁ : s.cur_window_begin_ - s.window_size_ ≤ t)
    (h₂ : t < s.cur_window_begin_) : s.advanceWindows t = (false, s) := by
  rw [advanceWindows, if_neg (by simp; omega), if_pos (by simp; omega)]

/-- Without `clear()`, the updates of the calls are appended to the log. -/
theorem foldl_sinceClear (calls : List Call) (h : ∀ c ∈ calls, c ≠ .clear) (log : List (ℤ × ℤ)) :
    calls.foldl Call.sinceClear log = log ++ calls.foldl Call.sinceClear [] := by
  induction calls generalizing log with
  | nil => simp
  | cons c calls ih =>
    rw [List.forall_mem_cons] at h
    cases c with
    | update v t => simp [Call.sinceClear, ih h.2 (log ++ [(v, t)]), ih h.2 [(v, t)]]
    | makeSnapshot t d => simpa [Call.sinceClear] using ih h.2 log
    | size t => simpa [Call.sinceClear] using ih h.2 log
    | clear => exact absurd rfl h.1

theorem windowValues_append (w : ℕ) (lo : ℤ) (l₁ l₂ : List (ℤ × ℤ)) :
    windowValues w lo (l₁ ++ l₂) = windowValues w lo l₁ ++ windowValues w lo l₂ := by
  simp [windowValues, List.filter_append]

/-- A call timed in the previous or the current window decides on the window only. -/
theorem advanceWindows_in_pair {t : ℤ} (h₁ : s.cur_window_begin_ - s.window_size_ ≤ t)
    (h₂ : t < s.cur_window_begin_ + s.window_size_) :
    s.advanceWindows t = (decide (s.cur_window_begin_ ≤ t), s) := by
  by_cases hcur : s.cur_window_begin_ ≤ t
  · simp [advanceWindows_of_current hcur h₂, hcur]
  · simp [advanceWindows_of_previous h₁ (not_le.1 hcur), hcur]

/-- A call other than `clear()` timed within the previous and the current window moves no
window: an update timed in the current window goes into it, and any other call leaves the state
as it is. -/
theorem step_in_pair {xs : List ℚ} (hc : Inv s.cur_window_ xs) {call : Call}
    (hclear : call ≠ .clear) (ht : ∀ t ∈ call.timestamp?,
      s.cur_window_begin_ - s.window_size_ ≤ t ∧ t < s.cur_window_begin_ + s.window_size_) :
    ∃ c₁, s.step call = some { s with cur_window_ := c₁ } ∧
      s.cur_window_.run ((windowValues s.window_size_ s.cur_window_begin_
        (Call.sinceClear [] call)).map fun v : ℤ => .insert (v : ℚ)) = some c₁ ∧
      ∃ ys, Inv c₁ ys := by
  have hkeep : s.cur_window_.run ((windowValues s.window_size_ s.cur_window_begin_ []).map
      fun v : ℤ => .insert (v : ℚ)) = some s.cur_window_ := rfl
  cases call with
  | update v t =>
    obtain ⟨h₁, h₂⟩ := ht t rfl
    by_cases hcur : s.cur_window_begin_ ≤ t
    · obtain ⟨c₁, hins, hi⟩ := hc.insert v
      refine ⟨c₁, ?_, ?_, _, hi⟩
      · simp [CKMSSample.step, CKMSSample.update, advanceWindows_in_pair h₁ h₂, hcur, hins]
      · simp [Call.sinceClear, windowValues, hcur, h₂, CKMS.run, CKMS.step, hins]
    · refine ⟨s.cur_window_, ?_, by simpa [Call.sinceClear, windowValues, hcur] using hkeep, _, hc⟩
      simp [CKMSSample.step, CKMSSample.update, advanceWindows_in_pair h₁ h₂, hcur]
  | makeSnapshot t d =>
    obtain ⟨h₁, h₂⟩ := ht t rfl
    refine ⟨s.cur_window_, ?_, hkeep, _, hc⟩
    simp only [CKMSSample.step, CKMSSample.makeSnapshot, advanceWindows_in_pair h₁ h₂]
    cases decide (s.cur_window_begin_ ≤ t) <;> rfl
  | size t =>
    obtain ⟨h₁, h₂⟩ := ht t rfl
    refine ⟨s.cur_window_, ?_, hkeep, _, hc⟩
    simp only [CKMSSample.step, CKMSSample.size, CKMSSample.makeSnapshot,
      advanceWindows_in_pair h₁ h₂]
    cases decide (s.cur_window_begin_ ≤ t) <;> rfl
  | clear => exact absurd rfl hclear

/-- Calls timed within the previous and the current window only feed the current window. -/
theorem run_in_pair {xs : List ℚ} (hc : Inv s.cur_window_ xs) (calls : List Call)
    (hcalls : ∀ c ∈ calls, c ≠ .clear ∧ ∀ t ∈ c.timestamp?,
      s.cur_window_begin_ - s.window_size_ ≤ t ∧ t < s.cur_window_begin_ + s.window_size_) :
    ∃ c, s.run calls = some { s with cur_window_ := c } ∧
      s.cur_window_.run ((windowValues s.window_size_ s.cur_window_begin_
        (calls.foldl Call.sinceClear [])).map fun v : ℤ => .insert (v : ℚ)) = some c := by
  induction calls generalizing s xs with
  | nil => exact ⟨s.cur_window_, rfl, rfl⟩
  | cons call calls ih =>
    rw [List.forall_mem_cons] at hcalls
    obtain ⟨c₁, hstep, hrun₁, ys, hi₁⟩ := step_in_pair hc hcalls.1.1 hcalls.1.2
    obtain ⟨c, hrun, hcrun⟩ := ih (s := { s with cur_window_ := c₁ }) hi₁ hcalls.2
    refine ⟨c, by simpa [CKMSSample.run, hstep] using hrun, ?_⟩
    rwa [List.foldl_cons, foldl_sinceClear calls fun c hc => (hcalls.2 c hc).1, windowValues_append,
      List.map_append, run_append, hrun₁]

/-- From any state reached by any calls, while the timestamps stay within the previous and the
current window, the clock going back and forth between them included, the windows do not move:
updates timed in the previous window are dropped, the current window takes those timed in it in
call order, and the previous window stays as it is, so every snapshot timed in the current window
reports it, while one timed in the previous window reports an empty summary. -/
theorem previous_window_stable (w : ℕ) (m₁ m₂ : ℚ) (pre : List Call) (s : CKMSSample)
    (hs : (new w m₁ m₂).run pre = some s) (calls : List Call)
    (hcalls : ∀ c ∈ calls, c ≠ .clear ∧
      ∀ t ∈ c.timestamp?, s.cur_window_begin_ - w ≤ t ∧ t < s.cur_window_begin_ + w) :
    ∃ c, s.run calls = some { s with cur_window_ := c } ∧
      s.cur_window_.run ((windowValues w s.cur_window_begin_ (calls.foldl Call.sinceClear [])).map
        fun v : ℤ => .insert (v : ℚ)) = some c ∧
      (∀ t divisor, s.cur_window_begin_ ≤ t → t < s.cur_window_begin_ + w →
        ({ s with cur_window_ := c }.makeSnapshot t divisor).1 =
          .ckms ⟨s.prev_window_, divisor⟩) ∧
      ∀ t divisor, s.cur_window_begin_ - w ≤ t → t < s.cur_window_begin_ →
        { s with cur_window_ := c }.makeSnapshot t divisor =
          (.ckms ⟨.new kDefaultQuantiles 0, 1⟩, { s with cur_window_ := c }) := by
  obtain ⟨s', hs', h⟩ := (sound_new w m₁ m₂).run pre
  rw [hs, Option.some_inj] at hs'
  subst hs'
  obtain ⟨xs, -, hxs, -⟩ := h.fed
  have hw := h.window_size
  subst hw
  obtain ⟨c, hrun, hcrun⟩ := run_in_pair hxs calls hcalls
  refine ⟨c, hrun, hcrun, fun t d h₁ h₂ => ?_, fun t d h₁ h₂ => ?_⟩
  · simp [CKMSSample.makeSnapshot, advanceWindows_of_current (s := { s with cur_window_ := c }) h₁ h₂]
  · simp [CKMSSample.makeSnapshot, advanceWindows_of_previous (s := { s with cur_window_ := c }) h₁ h₂]

theorem previous_window_stable_thirty :
    (new 30 0 0).run [] = some (new 30 0 0) ∧
    (∀ c ∈ [Call.update 5 10, .update 7 (-3), .makeSnapshot 12 1, .update 9 20], c ≠ .clear ∧
      ∀ t ∈ c.timestamp?, (new 30 0 0).cur_window_begin_ - (30 : ℕ) ≤ t ∧
        t < (new 30 0 0).cur_window_begin_ + (30 : ℕ)) ∧
    ∃ c, (new 30 0 0).run [.update 5 10, .update 7 (-3), .makeSnapshot 12 1, .update 9 20] =
        some { new 30 0 0 with cur_window_ := c } ∧
      (new 30 0 0).cur_window_.run ((windowValues 30 (new 30 0 0).cur_window_begin_
        ([Call.update 5 10, .update 7 (-3), .makeSnapshot 12 1, .update 9 20].foldl
          Call.sinceClear [])).map fun v : ℤ => .insert (v : ℚ)) = some c ∧
      (∀ t divisor, (new 30 0 0).cur_window_begin_ ≤ t → t < (new 30 0 0).cur_window_begin_ + (30 : ℕ) →
        ({ new 30 0 0 with cur_window_ := c }.makeSnapshot t divisor).1 =
          .ckms ⟨(new 30 0 0).prev_window_, divisor⟩) ∧
      ∀ t divisor, (new 30 0 0).cur_window_begin_ - (30 : ℕ) ≤ t → t < (new 30 0 0).cur_window_begin_ →
        { new 30 0 0 with cur_window_ := c }.makeSnapshot t divisor =
          (.ckms ⟨.new kDefaultQuantiles 0, 1⟩, { new 30 0 0 with cur_window_ := c }) :=
  ⟨rfl, by decide, previous_window_stable 30 0 0 [] _ rfl _ (by decide)⟩

end WindowPair

end Medida.Stats.CKMSSample
