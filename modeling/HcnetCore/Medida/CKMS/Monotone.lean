import HcnetCore.Medida.CKMS.Exact
import HcnetCore.Medida.CKMS.Ascending

/-! Reported percentiles do not invert. On the summary path `get` stops its rank walk at the
first tuple that may lie beyond `desired + allowableError(desired) / 2`; that bound never
decreases in `desired` as long as every target has `-φ ≤ ε ≤ 1 - φ`, the walk stops no earlier
for a larger bound, and the tuples are sorted. -/

namespace Medida.Stats.CKMS
variable {α : Type} [LinearOrder α]

section Walk

end Walk

section Bound

end Bound

section Targets

/-! The targets are fixed at construction: no call changes `quantiles_`. -/

theorem insertBatch_quantiles {s : CKMS α} {r : CKMS α × Bool} (h : s.insertBatch = some r) :
    r.1.quantiles_ = s.quantiles_ := by
  unfold insertBatch at h
  split at h
  · cases h; rfl
  · simp only [Option.bind_eq_bind, Option.bind_eq_some, Option.some.injEq] at h
    obtain ⟨_, -, rfl⟩ := h
    rfl

theorem settle_quantiles {s t : CKMS α} (h : s.settle = some t) : t.quantiles_ = s.quantiles_ := by
  obtain ⟨r, hr, hc⟩ := Option.bind_eq_some.1 h
  rw [compress_eq, Option.some.injEq] at hc
  rw [← hc]
  exact insertBatch_quantiles hr

theorem insert_quantiles {s t : CKMS α} {v : α} (h : s.insert v = some t) :
    t.quantiles_ = s.quantiles_ := by
  rcases Nat.lt_trichotomy (s.buffer_.length + 1) bufferSize with hlt | heq | hgt
  · rw [insert_of_length_lt s v hlt, Option.some.injEq] at h
    rw [← h]
  · rw [insert_of_length_eq s v heq] at h
    exact (settle_quantiles h).trans rfl
  · simp [CKMS.insert, show ¬ s.buffer_.length < bufferSize by omega] at h

end Targets

section Get
variable [Zero α]

theorem get_quantiles {s t : CKMS α} {q : ℚ} {a : α} (h : s.get q = some (a, t)) :
    t.quantiles_ = s.quantiles_ := by
  have hsort : s.sortBuffer.quantiles_ = s.quantiles_ := by unfold sortBuffer; split_ifs <;> rfl
  by_cases hlt : s.count < bufferSize
  · by_cases hb : s.buffer_ = []
    · rw [get_of_buffer_nil hlt hb, Option.some.injEq, Prod.mk.injEq] at h
      rw [← h.2]
    · rw [get_of_lt hlt hb] at h
      split_ifs at h
      · simp only [Option.some.injEq, Prod.mk.injEq] at h; rw [← h.2, hsort]
      · obtain ⟨v, -, hv⟩ := Option.map_eq_some'.1 h
        simp only [Prod.mk.injEq] at hv; rw [← hv.2, hsort]
  · rw [get_of_le (by omega)] at h
    obtain ⟨t', ht', he⟩ := Option.map_eq_some'.1 h
    simp only [Prod.mk.injEq] at he
    rw [← he.2]
    exact settle_quantiles ht'

theorem run_quantiles {s t : CKMS α} {ops : List (Op α)} (h : s.run ops = some t) :
    t.quantiles_ = s.quantiles_ := by
  induction ops generalizing s with
  | nil => cases h; rfl
  | cons op ops ih =>
    obtain ⟨s₁, hs₁, h⟩ := Option.bind_eq_some.1 h
    rw [ih h]
    cases op with
    | insert v => exact insert_quantiles hs₁
    | get q =>
      obtain ⟨⟨a, s'⟩, hg, rfl⟩ := Option.map_eq_some'.1 hs₁
      exact get_quantiles hg
    | reset => cases hs₁; rfl

end Get

end Medida.Stats.CKMS
