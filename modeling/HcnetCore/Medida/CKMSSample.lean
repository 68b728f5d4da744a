import HcnetCore.Medida.Snapshot
import HcnetCore.Medida.CKMS.Monotone

/-! `medida::stats::CKMSSample` (`stats/ckms_sample.cc`): two `CKMS` windows of `window_size_`,
the current one filling and the previous one reported, moved along by the timestamps of the
calls. Times are integer ticks of the clock since the epoch, and `window_size_` is counted in the
same ticks. Under the caller rule of `ckms_sample.h`, timestamps from the epoch on that never
decrease, no call is dropped, the current window starts on a multiple of the window size, and a
snapshot at `t` holds exactly the values updated in the aligned window before the one of `t`. -/

namespace Medida.Stats

structure CKMSSample where
  prev_window_ : CKMS ℚ
  cur_window_ : CKMS ℚ
  cur_window_begin_ : ℤ
  window_size_ : ℕ

namespace CKMSSample

/-- `CKMSSample(window_size)`; each window is a `CKMS()`, whose `max_` is left unset. -/
def new (window_size : ℕ) (m₁ m₂ : ℚ) : CKMSSample :=
  ⟨.new kDefaultQuantiles m₁, .new kDefaultQuantiles m₂, 0, window_size⟩

/-- `time - time.time_since_epoch() % window_size_`, where C++ `%` truncates toward zero. -/
def calculateCurrentWindowStartingPoint (s : CKMSSample) (time : ℤ) : ℤ :=
  time - time.tmod s.window_size_

def isInCurrentWindow (s : CKMSSample) (timestamp : ℤ) : Bool :=
  s.cur_window_begin_ ≤ timestamp && timestamp < s.cur_window_begin_ + s.window_size_

def isInPreviousWindow (s : CKMSSample) (timestamp : ℤ) : Bool :=
  timestamp < s.cur_window_begin_ && s.cur_window_begin_ ≤ timestamp + s.window_size_

def isInNextWindow (s : CKMSSample) (timestamp : ℤ) : Bool :=
  s.cur_window_begin_ + s.window_size_ ≤ timestamp &&
    timestamp < s.cur_window_begin_ + 2 * s.window_size_

/-- `AdvanceWindows(timestamp)`: whether the call may go on, and the windows it leaves. The swap
of the two pointers followed by the reset of the current one makes the old current window the
previous one and the old previous one, reset, the current one. -/
def advanceWindows (s : CKMSSample) (timestamp : ℤ) : Bool × CKMSSample :=
  if s.isInCurrentWindow timestamp then (true, s)
  else if s.isInPreviousWindow timestamp then (false, s)
  else if s.isInNextWindow timestamp then
    (true, { s with prev_window_ := s.cur_window_, cur_window_ := s.prev_window_.reset
                    cur_window_begin_ := s.cur_window_begin_ + s.window_size_ })
  else
    (true, { s with prev_window_ := s.prev_window_.reset, cur_window_ := s.cur_window_.reset
                    cur_window_begin_ := s.calculateCurrentWindowStartingPoint timestamp })

def clear (s : CKMSSample) : CKMSSample :=
  { s with prev_window_ := s.prev_window_.reset, cur_window_ := s.cur_window_.reset
           cur_window_begin_ := 0 }

/-- `Update(value, timestamp)`; `none` if the window's `insert` fails. -/
def update (s : CKMSSample) (value timestamp : ℤ) : Option CKMSSample :=
  match s.advanceWindows timestamp with
  | (true, s) => (s.cur_window_.insert value).map fun c => { s with cur_window_ := c }
  | (false, s) => some s

/-- `MakeSnapshot(timestamp, divisor)`: a copy of the previous window, or, for a dropped call,
of a fresh `CKMS()` with the default divisor (its unset `max_` taken as 0). -/
def makeSnapshot (s : CKMSSample) (timestamp : ℤ) (divisor : ℕ) : Snapshot × CKMSSample :=
  match s.advanceWindows timestamp with
  | (true, s) => (.ckms ⟨s.prev_window_, divisor⟩, s)
  | (false, s) => (.ckms ⟨.new kDefaultQuantiles 0, 1⟩, s)

/-- `size(timestamp)`: the size of `MakeSnapshot(timestamp)`. -/
def size (s : CKMSSample) (timestamp : ℤ) : ℕ × CKMSSample :=
  ((s.makeSnapshot timestamp 1).1.size, (s.makeSnapshot timestamp 1).2)

/-- The calls a client makes, each at an explicit time; the overloads without a timestamp pass
`SystemClock::now()`. -/
inductive Call
  | update (value timestamp : ℤ)
  | makeSnapshot (timestamp : ℤ) (divisor : ℕ)
  | size (timestamp : ℤ)
  | clear
deriving DecidableEq, Repr

def step (s : CKMSSample) : Call → Option CKMSSample
  | .update value timestamp => s.update value timestamp
  | .makeSnapshot timestamp divisor => some (s.makeSnapshot timestamp divisor).2
  | .size timestamp => some (s.size timestamp).2
  | .clear => some s.clear

def run (s : CKMSSample) : List Call → Option CKMSSample
  | [] => some s
  | call :: calls => (s.step call).bind fun s => s.run calls

@[simp] theorem isInCurrentWindow_iff {s : CKMSSample} {t : ℤ} : s.isInCurrentWindow t = true ↔
    s.cur_window_begin_ ≤ t ∧ t < s.cur_window_begin_ + s.window_size_ := by
  simp [isInCurrentWindow]

@[simp] theorem isInPreviousWindow_iff {s : CKMSSample} {t : ℤ} : s.isInPreviousWindow t = true ↔
    t < s.cur_window_begin_ ∧ s.cur_window_begin_ ≤ t + s.window_size_ := by
  simp [isInPreviousWindow]

@[simp] theorem isInNextWindow_iff {s : CKMSSample} {t : ℤ} : s.isInNextWindow t = true ↔
    s.cur_window_begin_ + s.window_size_ ≤ t ∧ t < s.cur_window_begin_ + 2 * s.window_size_ := by
  simp [isInNextWindow]

section Spec

/-- The timestamp a call carries; `clear()` carries none. -/
def Call.timestamp? : Call → Option ℤ
  | .update _ t => some t
  | .makeSnapshot t _ => some t
  | .size t => some t
  | .clear => none

/-- The caller rule of `ckms_sample.h` for the calls and a next call at `t`: no timestamp lies
before the epoch or before an earlier one. -/
def CallerRule (calls : List Call) (t : ℤ) : Prop :=
  (0 :: calls.filterMap Call.timestamp? ++ [t]).Pairwise (· ≤ ·)

instance (calls : List Call) (t : ℤ) : Decidable (CallerRule calls t) :=
  inferInstanceAs (Decidable (List.Pairwise _ _))

/-- The updates since the last `clear()`, each with its timestamp, in call order. -/
def Call.sinceClear (log : List (ℤ × ℤ)) : Call → List (ℤ × ℤ)
  | .update v t => log ++ [(v, t)]
  | .makeSnapshot _ _ => log
  | .size _ => log
  | .clear => []

/-- `a(t) = t - t mod w`, the start of the aligned window of `t`. -/
def windowStart (w : ℕ) (t : ℤ) : ℤ := t - t % w

/-- The values of `log` updated in `[lo, lo + w)`, in call order. -/
def windowValues (w : ℕ) (lo : ℤ) (log : List (ℤ × ℤ)) : List ℤ :=
  (log.filter fun p => lo ≤ p.2 ∧ p.2 < lo + w).map Prod.fst

/-- What a snapshot at `t` should hold: the values updated since the last `clear()` at times in
`[a(t) - w, a(t))`. -/
def reported (w : ℕ) (calls : List Call) (t : ℤ) : List ℤ :=
  windowValues w (windowStart w t - w) (calls.foldl Call.sinceClear [])

theorem windowValues_eq_nil {w : ℕ} {lo : ℤ} {log : List (ℤ × ℤ)} (h : ∀ p ∈ log, p.2 < lo) :
    windowValues w lo log = [] := by
  simp only [windowValues, List.map_eq_nil_iff, List.filter_eq_nil_iff, decide_eq_true_eq]
  exact fun p hp hin => absurd (h p hp) (not_lt.2 hin.1)

theorem windowValues_snoc (w : ℕ) (lo : ℤ) (log : List (ℤ × ℤ)) (v t : ℤ) :
    windowValues w lo (log ++ [(v, t)]) =
      windowValues w lo log ++ if lo ≤ t ∧ t < lo + w then [v] else [] := by
  simp only [windowValues, List.filter_append, List.map_append, List.filter_cons, List.filter_nil,
    decide_eq_true_eq]
  split_ifs <;> rfl

variable {w : ℕ} (hw : 0 < w)
include hw

theorem windowStart_le (t : ℤ) : windowStart w t ≤ t :=
  sub_le_self _ (Int.emod_nonneg _ (by omega))

theorem lt_windowStart_add (t : ℤ) : t < windowStart w t + w := by
  have := Int.emod_lt_of_pos t (by omega : (0 : ℤ) < w)
  unfold windowStart; omega

/-- The aligned start is the one multiple of `w` at most `w` below `t`. -/
theorem windowStart_eq {B t : ℤ} (hB : (w : ℤ) ∣ B) (h1 : B ≤ t) (h2 : t < B + w) :
    windowStart w t = B := by
  obtain ⟨k, rfl⟩ := hB
  have := (Int.ediv_emod_unique (by omega : (0 : ℤ) < w)).2
    ⟨(by ring : (t - w * k) + w * k = t), by linarith, by linarith⟩
  unfold windowStart; linarith [this.2]

end Spec

section Fed
open CKMS

/-- `c` is a `CKMS()`, or a reset one, that was given the values `xs` by `insert`, in order. -/
def Fed (c : CKMS ℚ) (xs : List ℤ) : Prop :=
  ∃ m, (CKMS.new kDefaultQuantiles m).run (xs.map fun v : ℤ => .insert (v : ℚ)) = some c

theorem sinceReset_inserts (acc : List ℚ) (xs : List ℤ) :
    (xs.map fun v : ℤ => Op.insert (v : ℚ)).foldl Op.sinceReset acc = acc ++ xs.map fun v : ℤ => (v : ℚ) := by
  induction xs generalizing acc with
  | nil => simp
  | cons x xs ih => simp [Op.sinceReset, ih]

theorem Fed.inv {c : CKMS ℚ} {xs : List ℤ} (h : Fed c xs) : Inv c (xs.map fun v : ℤ => (v : ℚ)) := by
  obtain ⟨m, hm⟩ := h
  obtain ⟨c', hc', hinv⟩ := (inv_new kDefaultQuantiles m).run (xs.map fun v : ℤ => Op.insert (v : ℚ))
  rw [hm, Option.some_inj] at hc'
  simpa [hc', sinceReset_inserts] using hinv

theorem Fed.reset {c : CKMS ℚ} {xs : List ℤ} (h : Fed c xs) : Fed c.reset [] := by
  obtain ⟨m, hm⟩ := h
  exact ⟨0, by simp [CKMS.run, CKMS.reset, CKMS.new, run_quantiles hm]⟩

theorem Fed.insert {c : CKMS ℚ} {xs : List ℤ} (h : Fed c xs) (v : ℤ) :
    ∃ c', c.insert v = some c' ∧ Fed c' (xs ++ [v]) := by
  obtain ⟨c', hc', -⟩ := h.inv.insert v
  obtain ⟨m, hm⟩ := h
  exact ⟨c', hc', m, by rw [List.map_append, run_append, hm]; simp [CKMS.run, CKMS.step, hc']⟩

theorem Fed.count {c : CKMS ℚ} {xs : List ℤ} (h : Fed c xs) : c.count = xs.length := by
  simpa using h.inv.count_eq

/-- After its first value a window no longer depends on the `max_` it started from. -/
theorem run_inserts_new (m : ℚ) (v : ℤ) (xs : List ℤ) :
    (CKMS.new kDefaultQuantiles m).run ((v :: xs).map fun v : ℤ => .insert (v : ℚ)) =
      (CKMS.new kDefaultQuantiles 0).run ((v :: xs).map fun v : ℤ => .insert (v : ℚ)) := by
  simp [CKMS.run, CKMS.step, CKMS.insert, CKMS.new, count, bufferSize]

/-- A fed window has the buffered values, tuples and count of a reset `CKMS` given the same
values, and its `max_` once it holds any. -/
theorem Fed.reset_run {c : CKMS ℚ} {xs : List ℤ} (h : Fed c xs) :
    ∃ c', (CKMS.new kDefaultQuantiles 0).reset.run (xs.map fun v : ℤ => .insert (v : ℚ)) = some c' ∧
      c.buffer_ = c'.buffer_ ∧ c.sample_ = c'.sample_ ∧ c.count_ = c'.count_ ∧
      (xs ≠ [] → c.max_ = c'.max_) := by
  obtain ⟨m, hm⟩ := h
  cases xs with
  | nil =>
    cases hm
    exact ⟨_, rfl, rfl, rfl, rfl, fun h => absurd rfl h⟩
  | cons v xs => exact ⟨c, by rw [← hm, run_inserts_new]; rfl, rfl, rfl, rfl, fun _ => rfl⟩

end Fed

section Windows

/-- What a sample holds after calls whose updates since the last `clear()` are `log`, the latest
timestamp being `last`: the current window starts on a multiple of `w` no later than `last`,
every update lies before its end, and each window was fed the updates of its own span. -/
structure Windows (w : ℕ) (log : List (ℤ × ℤ)) (last : ℤ) (s : CKMSSample) : Prop where
  window_size : s.window_size_ = w
  dvd_begin : (w : ℤ) ∣ s.cur_window_begin_
  begin_le : s.cur_window_begin_ ≤ last
  last_nonneg : 0 ≤ last
  log_lt : ∀ p ∈ log, p.2 < s.cur_window_begin_ + w
  cur : Fed s.cur_window_ (windowValues w s.cur_window_begin_ log)
  prev : Fed s.prev_window_ (windowValues w (s.cur_window_begin_ - w) log)

theorem windows_new (w : ℕ) (m₁ m₂ : ℚ) : Windows w [] 0 (new w m₁ m₂) :=
  ⟨rfl, dvd_zero _, le_rfl, le_rfl, by simp, ⟨m₂, rfl⟩, ⟨m₁, rfl⟩⟩

variable {w : ℕ} {log : List (ℤ × ℤ)} {last : ℤ} {s : CKMSSample}

theorem Windows.clear (h : Windows w log last s) : Windows w [] last s.clear :=
  ⟨h.window_size, dvd_zero _, h.last_nonneg, h.last_nonneg, by simp, h.cur.reset, h.prev.reset⟩

variable (hw : 0 < w)
include hw

/-- From any state of the invariant, a call at `t` no earlier than the last is never dropped,
and moves the current window to the aligned window of `t`. -/
theorem Windows.advance (h : Windows w log last s) {t : ℤ} (ht : last ≤ t) :
    ∃ s', s.advanceWindows t = (true, s') ∧ Windows w log t s' ∧
      s'.cur_window_begin_ = windowStart w t := by
  obtain ⟨prev, cur, B, w'⟩ := s
  obtain rfl : w = w' := h.window_size.symm
  have hlog : ∀ p ∈ log, p.2 < B + w := h.log_lt
  have hdvdB : (w : ℤ) ∣ B := h.dvd_begin
  have hB : B ≤ t := h.begin_le.trans ht
  have ht0 := h.last_nonneg.trans ht
  by_cases h1 : t < B + w
  · rw [advanceWindows, if_pos (isInCurrentWindow_iff.2 ⟨hB, h1⟩)]
    exact ⟨_, rfl, { h with begin_le := hB, last_nonneg := ht0 },
      (windowStart_eq hw h.dvd_begin hB h1).symm⟩
  rw [advanceWindows, if_neg (by simp; omega), if_neg (by simp; omega)]
  by_cases h2 : t < B + 2 * w
  · rw [if_pos (isInNextWindow_iff.2 ⟨by simp only; omega, h2⟩)]
    have hdvd : (w : ℤ) ∣ B + w := dvd_add h.dvd_begin dvd_rfl
    refine ⟨_, rfl, ⟨rfl, hdvd, by simp only; omega, ht0, fun p hp => ?_, ?_, ?_⟩,
      (windowStart_eq hw hdvd (by omega) (by omega)).symm⟩
    · have := hlog p hp; simp only; omega
    · rw [windowValues_eq_nil hlog]; exact h.prev.reset
    · simp only [add_sub_cancel_right]; exact h.cur
  · rw [if_neg (by simp; omega)]
    have hstart : calculateCurrentWindowStartingPoint ⟨prev, cur, B, w⟩ t = windowStart w t := by
      rw [calculateCurrentWindowStartingPoint, Int.tmod_eq_emod ht0 (Int.natCast_nonneg w),
        windowStart]
    have hdvd : (w : ℤ) ∣ windowStart w t := Int.dvd_sub_of_emod_eq rfl
    have hlt := lt_windowStart_add hw t
    have hgap : B + w ≤ windowStart w t - w := by
      have := Int.le_of_dvd (by omega) (dvd_sub (dvd_sub hdvd hdvdB) (dvd_refl (w : ℤ)))
      omega
    have hlog' : ∀ p ∈ log, p.2 < windowStart w t - w := fun p hp => (hlog p hp).trans_le hgap
    refine ⟨_, rfl, ⟨rfl, ?_, ?_, ht0, fun p hp => ?_, ?_, ?_⟩, hstart⟩ <;> simp only [hstart]
    · exact hdvd
    · exact windowStart_le hw t
    · exact (hlog' p hp).trans (by omega)
    · rw [windowValues_eq_nil fun p hp => (hlog' p hp).trans (by omega)]; exact h.cur.reset
    · rw [windowValues_eq_nil hlog']; exact h.prev.reset

theorem Windows.update (h : Windows w log last s) (v : ℤ) {t : ℤ} (ht : last ≤ t) :
    ∃ s', s.update v t = some s' ∧ Windows w (log ++ [(v, t)]) t s' := by
  obtain ⟨s₁, hadv, h₁, hB⟩ := h.advance hw ht
  obtain ⟨c, hc, hfed⟩ := h₁.cur.insert v
  have hle := hB ▸ windowStart_le hw t
  have hlt := hB ▸ lt_windowStart_add hw t
  refine ⟨{ s₁ with cur_window_ := c }, by simp [CKMSSample.update, hadv, hc],
    ⟨h₁.window_size, h₁.dvd_begin, h₁.begin_le, h₁.last_nonneg, ?_, ?_, ?_⟩⟩
  · intro p hp
    rcases List.mem_append.1 hp with hp | hp
    · exact h₁.log_lt p hp
    · rw [List.mem_singleton.1 hp]; exact hlt
  · dsimp only
    rw [windowValues_snoc, if_pos ⟨hle, hlt⟩]; exact hfed
  · dsimp only
    rw [windowValues_snoc, if_neg (by omega), List.append_nil]; exact h₁.prev

theorem Windows.makeSnapshot (h : Windows w log last s) {t : ℤ} (ht : last ≤ t) (divisor : ℕ) :
    ∃ s', s.makeSnapshot t divisor = (.ckms ⟨s'.prev_window_, divisor⟩, s') ∧
      Windows w log t s' ∧ Fed s'.prev_window_ (windowValues w (windowStart w t - w) log) := by
  obtain ⟨s', hadv, h', hB⟩ := h.advance hw ht
  exact ⟨s', by simp [CKMSSample.makeSnapshot, hadv], h', hB ▸ h'.prev⟩

theorem Windows.step (h : Windows w log last s) (call : Call)
    (ht : ∀ t ∈ call.timestamp?, last ≤ t) :
    ∃ s', s.step call = some s' ∧ Windows w (Call.sinceClear log call) (call.timestamp?.getD last) s' := by
  cases call with
  | update v t => exact h.update hw v (ht t rfl)
  | makeSnapshot t divisor =>
    obtain ⟨s', hmk, h', -⟩ := h.makeSnapshot hw (ht t rfl) divisor
    exact ⟨s', by simp [CKMSSample.step, hmk], h'⟩
  | size t =>
    obtain ⟨s', hmk, h', -⟩ := h.makeSnapshot hw (ht t rfl) 1
    exact ⟨s', by simp [CKMSSample.step, CKMSSample.size, hmk], h'⟩
  | clear => exact ⟨_, rfl, h.clear⟩

/-- Every run of calls that keeps to the caller rule, up to a next call at `t`, succeeds and ends
in a state of the invariant whose latest timestamp is at most `t`. -/
theorem Windows.run (h : Windows w log last s) (calls : List Call) {t : ℤ}
    (hc : (last :: calls.filterMap Call.timestamp? ++ [t]).Pairwise (· ≤ ·)) :
    ∃ s' last', s.run calls = some s' ∧ last' ≤ t ∧
      Windows w (calls.foldl Call.sinceClear log) last' s' := by
  induction calls generalizing s log last with
  | nil => exact ⟨s, last, rfl, by simpa using hc, h⟩
  | cons call calls ih =>
    have hstep : (∀ τ ∈ call.timestamp?, last ≤ τ) ∧
        (call.timestamp?.getD last :: calls.filterMap Call.timestamp? ++ [t]).Pairwise (· ≤ ·) := by
      cases hts : call.timestamp? with
      | none => exact ⟨by simp, by simpa [List.filterMap_cons, hts] using hc⟩
      | some τ =>
        simp only [List.filterMap_cons, hts, List.cons_append] at hc
        exact ⟨by simpa using (List.pairwise_cons.1 hc).1 τ (List.mem_cons_self _ _),
          (List.pairwise_cons.1 hc).2⟩
    obtain ⟨s₁, hs₁, h₁⟩ := h.step hw call hstep.1
    obtain ⟨s', last', hs', hlast, h'⟩ := ih h₁ hstep.2
    exact ⟨s', last', by simp [CKMSSample.run, hs₁, hs'], hlast, h'⟩

end Windows

/-- Under the caller rule, from construction: every reachable state has its current window on a
multiple of `w`, a next call at `t` is never dropped, a snapshot at `t` holds a window fed
exactly the values updated since the last `clear()` in `[a(t) - w, a(t))`, and `size(t)` counts
them. -/
theorem makeSnapshot_reported (w : ℕ) (hw : 0 < w) (m₁ m₂ : ℚ) (calls : List Call) (t : ℤ)
    (divisor : ℕ) (hrule : CallerRule calls t) :
    ∃ s, (new w m₁ m₂).run calls = some s ∧ (w : ℤ) ∣ s.cur_window_begin_ ∧
      (s.advanceWindows t).1 = true ∧
      (∃ c, (s.makeSnapshot t divisor).1 = .ckms ⟨c, divisor⟩ ∧
        ∃ c', (CKMS.new kDefaultQuantiles 0).reset.run
            ((reported w calls t).map fun v : ℤ => .insert (v : ℚ)) = some c' ∧
          c.buffer_ = c'.buffer_ ∧ c.sample_ = c'.sample_ ∧ c.count_ = c'.count_ ∧
          (reported w calls t ≠ [] → c.max_ = c'.max_)) ∧
      (s.size t).1 = (reported w calls t).length := by
  obtain ⟨s, last, hrun, hlast, hinv⟩ := (windows_new w m₁ m₂).run hw calls hrule
  obtain ⟨s', hadv, -⟩ := hinv.advance hw hlast
  obtain ⟨s₁, hmk, -, hfed⟩ := hinv.makeSnapshot hw hlast divisor
  obtain ⟨s₂, hmk₁, -, hfed₁⟩ := hinv.makeSnapshot hw hlast 1
  refine ⟨s, hrun, hinv.dvd_begin, by rw [hadv], ⟨_, by rw [hmk], hfed.reset_run⟩, ?_⟩
  rw [CKMSSample.size, hmk₁]
  exact hfed₁.count

theorem makeSnapshot_reported_thirty : 0 < 30 ∧
    CallerRule [.update 5 10, .update 7 40, .update 9 65] 70 ∧
    ∃ s, (new 30 0 0).run [.update 5 10, .update 7 40, .update 9 65] = some s ∧
      ((30 : ℕ) : ℤ) ∣ s.cur_window_begin_ ∧ (s.advanceWindows 70).1 = true ∧
      (∃ c, (s.makeSnapshot 70 1).1 = .ckms ⟨c, 1⟩ ∧
        ∃ c', (CKMS.new kDefaultQuantiles 0).reset.run
            ((reported 30 [.update 5 10, .update 7 40, .update 9 65] 70).map
              fun v : ℤ => .insert (v : ℚ)) = some c' ∧
          c.buffer_ = c'.buffer_ ∧ c.sample_ = c'.sample_ ∧ c.count_ = c'.count_ ∧
          (reported 30 [.update 5 10, .update 7 40, .update 9 65] 70 ≠ [] → c.max_ = c'.max_)) ∧
      (s.size 70).1 = (reported 30 [.update 5 10, .update 7 40, .update 9 65] 70).length :=
  ⟨by decide, by decide, makeSnapshot_reported 30 (by decide) 0 0 _ 70 1 (by decide)⟩

section Report

end Report

end CKMSSample
end Medida.Stats
