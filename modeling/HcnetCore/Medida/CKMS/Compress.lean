import HcnetCore.Medida.CKMS.Defs

/-! `compress` as one pass over a list. The index loop visits each adjacent pair once; after
a merge the merged tuple is not revisited, which is what `pass` does by leaving it behind. -/

namespace Medida.Stats.CKMS
variable {α : Type}

/-- The tuples the loop of `compress` still has to visit, `done` tuples lying before them. -/
def pass (quantiles : List Quantile) (done : ℕ) : List (Item α) → List (Item α)
  | [] => []
  | p :: tl =>
    match tl with
    | [] => [p]
    | x :: rest =>
      if ((p.g + x.g + x.delta : ℤ) : ℚ) ≤
          allowableError quantiles (done + 2 + rest.length) (done + 1) then
        { x with g := x.g + p.g } :: pass quantiles (done + 1) rest
      else p :: pass quantiles (done + 1) (x :: rest)

def values (sample : List (Item α)) : List α := sample.map Item.value

theorem pass_of_length_le_one (quantiles : List Quantile) (done : ℕ) {l : List (Item α)}
    (h : l.length ≤ 1) : pass quantiles done l = l := by
  match l, h with
  | [], _ => rfl
  | [_], _ => rfl

theorem compressLoop_eq_pass [LinearOrder α] (quantiles : List Quantile) (fuel : ℕ)
    (A B : List (Item α)) (hfuel : B.length ≤ fuel + 1) :
    compressLoop quantiles fuel (A ++ B) A.length (A.length + 1) =
      some (A ++ pass quantiles A.length B) := by
  induction fuel generalizing A B with
  | zero => rw [pass_of_length_le_one _ _ hfuel]; rfl
  | succ fuel ih =>
    match B, hfuel with
    | [], _ => simp [compressLoop, pass]
    | [p], _ => simp [compressLoop, pass]
    | p :: x :: rest, hfuel =>
      have hlen : (A ++ p :: x :: rest).length = A.length + 2 + rest.length := by simp; omega
      have hp : (A ++ p :: x :: rest)[A.length]? = some p := by
        rw [List.getElem?_append_right le_rfl]; simp
      have hx : (A ++ p :: x :: rest)[A.length + 1]? = some x := by
        rw [List.getElem?_append_right (by omega)]; simp
      have hfuel' : rest.length ≤ fuel := by simp at hfuel; omega
      rw [compressLoop, if_pos (by rw [hlen]; omega)]
      simp only [hp, hx, Option.bind_eq_bind, Option.some_bind, hlen, Nat.cast_add, Nat.cast_one,
        pass]
      split_ifs with hmerge
      · have hset : ((A ++ p :: x :: rest).set (A.length + 1) { x with g := x.g + p.g }).eraseIdx
            A.length = (A ++ [{ x with g := x.g + p.g }]) ++ rest := by
          rw [List.set_append_right _ _ (by omega)]
          simp [List.eraseIdx_append_of_length_le]
        have h := ih (A ++ [{ x with g := x.g + p.g }]) rest (by omega)
        simp only [List.length_append, List.length_singleton, List.append_assoc,
          List.singleton_append] at h
        rw [hset, List.append_assoc, List.singleton_append, h]
      · have h := ih (A ++ [p]) (x :: rest) (by simpa using hfuel')
        simp only [List.length_append, List.length_singleton, List.append_assoc,
          List.singleton_append] at h
        rw [h]

theorem compress_eq [LinearOrder α] (s : CKMS α) :
    s.compress = some { s with sample_ := pass s.quantiles_ 0 s.sample_ } := by
  unfold compress
  split_ifs with h
  · rw [pass_of_length_le_one _ _ (by omega)]
  · simpa using compressLoop_eq_pass s.quantiles_ s.sample_.length [] s.sample_ (by omega)

section Pass
variable (quantiles : List Quantile) {done : ℕ} {p x : Item α} {rest : List (Item α)}

theorem pass_merge
    (h : ((p.g + x.g + x.delta : ℤ) : ℚ) ≤ allowableError quantiles (done + 2 + rest.length) (done + 1)) :
    pass quantiles done (p :: x :: rest) = { x with g := x.g + p.g } :: pass quantiles (done + 1) rest := by
  rw [pass, if_pos h]

theorem pass_keep
    (h : ¬((p.g + x.g + x.delta : ℤ) : ℚ) ≤ allowableError quantiles (done + 2 + rest.length) (done + 1)) :
    pass quantiles done (p :: x :: rest) = p :: pass quantiles (done + 1) (x :: rest) := by
  rw [pass, if_neg h]

theorem values_pass_sublist (done : ℕ) (l : List (Item α)) :
    (values (pass quantiles done l)).Sublist (values l) := by
  induction done, l using pass.induct quantiles with
  | case1 => simp [pass]
  | case2 => simp [pass]
  | case3 done p x rest h ih =>
    rw [pass_merge quantiles h]
    exact ((ih.cons₂ x.value).cons p.value)
  | case4 done p x rest h ih =>
    rw [pass_keep quantiles h]
    exact ih.cons₂ p.value

theorem sum_g_pass (done : ℕ) (l : List (Item α)) :
    ((pass quantiles done l).map Item.g).sum = (l.map Item.g).sum := by
  induction done, l using pass.induct quantiles with
  | case1 => simp [pass]
  | case2 => simp [pass]
  | case3 done p x rest h ih =>
    rw [pass_merge quantiles h]
    simp only [List.map_cons, List.sum_cons, ih]
    ring
  | case4 done p x rest h ih =>
    rw [pass_keep quantiles h]
    simp only [List.map_cons, List.sum_cons] at ih ⊢
    rw [ih]

theorem g_pos_pass (done : ℕ) (l : List (Item α)) (hl : ∀ t ∈ l, 0 < t.g) :
    ∀ t ∈ pass quantiles done l, 0 < t.g := by
  induction done, l using pass.induct quantiles with
  | case1 => simp [pass]
  | case2 => simpa only [pass] using hl
  | case3 done p x rest h ih =>
    rw [pass_merge quantiles h]
    simp only [List.mem_cons, forall_eq_or_imp] at hl ⊢
    obtain ⟨hp, hx, hrest⟩ := hl
    exact ⟨by omega, ih hrest⟩
  | case4 done p x rest h ih =>
    rw [pass_keep quantiles h]
    simp only [List.mem_cons, forall_eq_or_imp] at hl ⊢
    exact ⟨hl.1, ih (by simpa using hl.2)⟩

end Pass

end Medida.Stats.CKMS
