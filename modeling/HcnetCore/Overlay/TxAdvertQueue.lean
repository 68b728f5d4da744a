import Mathlib.Data.List.DropRight

/-! The pull-mode advert queue of an overlay peer (`overlay/TxAdvertQueue.cpp`). Hashes to
retry are popped before freshly advertised ones, so the queue reads as `retry ++ incoming`;
both trimming calls pop from that front until the queue fits the ledger's transaction-set
limit, which is passed to each call since it may change between calls. -/

namespace Hcnet.Overlay

structure TxAdvertQueue (Hash : Type) where
  txHashesToRetry : List Hash
  incomingTxHashes : List Hash
deriving DecidableEq, Repr

namespace TxAdvertQueue
variable {Hash : Type}

def size (q : TxAdvertQueue Hash) : ℕ := q.incomingTxHashes.length + q.txHashesToRetry.length

/-- The order in which `pop` hands the hashes out. -/
def toList (q : TxAdvertQueue Hash) : List Hash := q.txHashesToRetry ++ q.incomingTxHashes

/-- `pop`; `none` stands for a failed `releaseAssert(size() > 0)`. -/
def pop (q : TxAdvertQueue Hash) : Option (Hash × TxAdvertQueue Hash) :=
  if 0 < q.size then
    match q.txHashesToRetry, q.incomingTxHashes with
    | h :: rest, _ => some (h, { q with txHashesToRetry := rest })
    | [], h :: rest => some (h, { q with incomingTxHashes := rest })
    | [], [] => none
  else none

/-- The loop `while (size() > limit) pop();`, given one unit of fuel per queued hash. -/
def trim (limit : ℕ) : ℕ → TxAdvertQueue Hash → Option (TxAdvertQueue Hash)
  | 0, q => some q
  | fuel + 1, q => if limit < q.size then q.pop.bind fun p => trim limit fuel p.2 else some q

/-- Splices `list` onto the retry list, leaving `list` empty, then trims. -/
def appendHashesToRetryAndMaybeTrim (limit : ℕ) (q : TxAdvertQueue Hash) (list : List Hash) :
    Option (TxAdvertQueue Hash × List Hash) :=
  let q := { q with txHashesToRetry := q.txHashesToRetry ++ list }
  (trim limit q.size q).map fun q => (q, [])

/-- Hashes that the trimming loop would pop at once are never pushed. -/
def queueAndMaybeTrim (limit : ℕ) (q : TxAdvertQueue Hash) (txHashes : List Hash) :
    Option (TxAdvertQueue Hash) :=
  let skip := if limit < txHashes.length then txHashes.length - limit else 0
  let q := { q with incomingTxHashes := q.incomingTxHashes ++ txHashes.drop skip }
  trim limit q.size q

@[simp]
theorem pop_cons (y : Hash) (retry incoming : List Hash) :
    pop ⟨y :: retry, incoming⟩ = some (y, ⟨retry, incoming⟩) := by
  rw [pop, if_pos (by simp only [size, List.length_cons]; omega)]

@[simp]
theorem pop_nil_cons (z : Hash) (incoming : List Hash) :
    pop ⟨[], z :: incoming⟩ = some (z, ⟨[], incoming⟩) := by
  rw [pop, if_pos (by simp only [size, List.length_cons]; omega)]

theorem length_toList (q : TxAdvertQueue Hash) : q.toList.length = q.size := by
  simp [toList, size, Nat.add_comm]

theorem pop_spec (q : TxAdvertQueue Hash) (h : 0 < q.size) :
    ∃ x q', q.pop = some (x, q') ∧ q.toList = x :: q'.toList := by
  rcases q with ⟨_ | ⟨x, retry⟩, _ | ⟨y, incoming⟩⟩
  · simp [size] at h
  · exact ⟨y, ⟨[], incoming⟩, by simp [pop, h], rfl⟩
  all_goals exact ⟨x, ⟨retry, _⟩, by simp [pop, h], rfl⟩

/-- Trimming with enough fuel keeps the last `limit` hashes, in order. -/
theorem trim_spec (limit fuel : ℕ) (q : TxAdvertQueue Hash) (hfuel : q.size ≤ fuel) :
    ∃ q', trim limit fuel q = some q' ∧ q'.toList = q.toList.rtake limit := by
  induction fuel generalizing q with
  | zero => exact ⟨q, rfl, by simp [List.rtake, length_toList, Nat.le_zero.mp hfuel]⟩
  | succ fuel ih =>
    by_cases hlim : limit < q.size
    · obtain ⟨x, q', hpop, hlist⟩ := pop_spec q (by omega)
      have hsize : q'.size + 1 = q.size := by
        rw [← length_toList, ← length_toList, hlist, List.length_cons]
      obtain ⟨r, hr, hrl⟩ := ih q' (by omega)
      refine ⟨r, by simp [trim, hlim, hpop, hr], ?_⟩
      rw [hrl, hlist, List.rtake, List.rtake, length_toList, List.length_cons, length_toList]
      rw [show q'.size + 1 - limit = (q'.size - limit) + 1 by omega, List.drop_succ_cons]
    · exact ⟨q, by simp [trim, hlim], by simp [List.rtake, length_toList, show q.size - limit = 0 by omega]⟩

theorem rtake_append_of_le {l m : List Hash} {n : ℕ} (h : n ≤ m.length) :
    (l ++ m).rtake n = m.rtake n := by
  simp only [List.rtake, List.length_append]
  rw [show l.length + m.length - n = l.length + (m.length - n) by omega, List.drop_append]

theorem rtake_min_length (l : List Hash) (n : ℕ) : l.rtake (min n l.length) = l.rtake n := by
  simp only [List.rtake]
  congr 1
  omega

/-- Skipping the hashes that would be popped at once leaves the same queue behind. -/
theorem rtake_append_drop (l hs : List Hash) (limit : ℕ) :
    (l ++ hs.drop (if limit < hs.length then hs.length - limit else 0)).rtake limit =
      (l ++ hs).rtake limit := by
  split_ifs with h
  · rw [rtake_append_of_le (by simp; omega), rtake_append_of_le h.le]
    simp [List.rtake, show hs.length - (hs.length - limit) - limit = 0 by omega]
  · rfl

theorem queueAndMaybeTrim_spec (limit : ℕ) (q : TxAdvertQueue Hash) (txHashes : List Hash) :
    ∃ q', queueAndMaybeTrim limit q txHashes = some q' ∧
      q'.toList = (q.toList ++ txHashes).rtake limit := by
  obtain ⟨q', h, hl⟩ := trim_spec limit _ _ le_rfl
  refine ⟨q', h, ?_⟩
  rw [hl, ← rtake_append_drop]
  simp [toList]

theorem appendHashesToRetryAndMaybeTrim_spec (limit : ℕ) (q : TxAdvertQueue Hash)
    (list : List Hash) :
    ∃ q', appendHashesToRetryAndMaybeTrim limit q list = some (q', []) ∧
      q'.toList = (q.txHashesToRetry ++ list ++ q.incomingTxHashes).rtake limit := by
  obtain ⟨q', h, hl⟩ := trim_spec limit _ { q with txHashesToRetry := q.txHashesToRetry ++ list } le_rfl
  exact ⟨q', by simp [appendHashesToRetryAndMaybeTrim, h], by rw [hl]; simp [toList]⟩

theorem size_le_of_rtake {q' : TxAdvertQueue Hash} {l : List Hash} {limit : ℕ}
    (h : q'.toList = l.rtake limit) : q'.size ≤ limit := by
  rw [← length_toList, h, List.rtake, List.length_drop]
  omega

/-- The queue as `retry ++ incoming`: both trimming calls keep exactly the newest `limit`
hashes in order and never fail the assertion in `pop`, and `pop` takes the front. -/
theorem txAdvertQueue_trimming_law :
    (∀ (limit : ℕ) (q : TxAdvertQueue Hash) (txHashes : List Hash),
      ∃ q', queueAndMaybeTrim limit q txHashes = some q' ∧
        q'.toList = (q.toList ++ txHashes).rtake (min limit (q.size + txHashes.length)) ∧
        q'.size ≤ limit) ∧
    (∀ (limit : ℕ) (q : TxAdvertQueue Hash) (list : List Hash),
      ∃ q', appendHashesToRetryAndMaybeTrim limit q list = some (q', []) ∧
        q'.toList = (q.txHashesToRetry ++ list ++ q.incomingTxHashes).rtake
          (min limit (q.size + list.length)) ∧ q'.size ≤ limit) ∧
    (∀ q : TxAdvertQueue Hash, 0 < q.size →
      ∃ x q', q.pop = some (x, q') ∧ q.toList = x :: q'.toList) := by
  refine ⟨fun limit q txHashes => ?_, fun limit q list => ?_, pop_spec⟩
  · obtain ⟨q', h, hl⟩ := queueAndMaybeTrim_spec limit q txHashes
    refine ⟨q', h, ?_, size_le_of_rtake hl⟩
    rw [hl, ← rtake_min_length, List.length_append, length_toList]
  · obtain ⟨q', h, hl⟩ := appendHashesToRetryAndMaybeTrim_spec limit q list
    refine ⟨q', h, ?_, size_le_of_rtake hl⟩
    rw [hl, ← rtake_min_length]
    simp [size, Nat.add_comm, Nat.add_left_comm]

section Run

/-- A call a peer makes on its advert queue; each trimming call gets the limit of the moment. -/
inductive Call (Hash : Type)
  | queueAndMaybeTrim (limit : ℕ) (txHashes : List Hash)
  | appendHashesToRetryAndMaybeTrim (limit : ℕ) (list : List Hash)
  | pop
deriving DecidableEq, Repr

/-- The hashes a call adds to the retry list. -/
def Call.retried : Call Hash → List Hash
  | .appendHashesToRetryAndMaybeTrim _ list => list
  | _ => []

/-- The hashes a call advertises into the incoming list. -/
def Call.queued : Call Hash → List Hash
  | .queueAndMaybeTrim _ txHashes => txHashes
  | _ => []

/-- One call: the queue it leaves and the hashes it hands out; `none` for the failed
`releaseAssert` of `pop` on an empty queue. -/
def step (q : TxAdvertQueue Hash) : Call Hash → Option (TxAdvertQueue Hash × List Hash)
  | .queueAndMaybeTrim limit txHashes => (q.queueAndMaybeTrim limit txHashes).map (·, [])
  | .appendHashesToRetryAndMaybeTrim limit list =>
    (q.appendHashesToRetryAndMaybeTrim limit list).map fun r => (r.1, [])
  | .pop => q.pop.map fun r => (r.2, [r.1])

/-- The calls in order, with every hash `pop` handed out. -/
def run (q : TxAdvertQueue Hash) : List (Call Hash) → Option (TxAdvertQueue Hash × List Hash)
  | [] => some (q, [])
  | c :: cs => (q.step c).bind fun r => (r.1.run cs).map fun r' => (r'.1, r.2 ++ r'.2)

/-- Each list only loses hashes at its front. -/
def KeepsNewest (q q' : TxAdvertQueue Hash) (retried queued : List Hash) : Prop :=
  q'.txHashesToRetry.IsSuffix (q.txHashesToRetry ++ retried) ∧
    q'.incomingTxHashes.IsSuffix (q.incomingTxHashes ++ queued)

theorem isSuffix_append_right {l₁ l₂ : List Hash} (h : l₁.IsSuffix l₂) (l : List Hash) :
    (l₁ ++ l).IsSuffix (l₂ ++ l) := by
  obtain ⟨t, rfl⟩ := h
  exact ⟨t, by simp⟩

theorem keepsNewest_refl (q : TxAdvertQueue Hash) : KeepsNewest q q [] [] := by
  simp [KeepsNewest, List.suffix_refl]

theorem KeepsNewest.trans {q₁ q₂ q₃ : TxAdvertQueue Hash} {r₁ u₁ r₂ u₂ : List Hash}
    (h₁ : KeepsNewest q₁ q₂ r₁ u₁) (h₂ : KeepsNewest q₂ q₃ r₂ u₂) :
    KeepsNewest q₁ q₃ (r₁ ++ r₂) (u₁ ++ u₂) := by
  rw [KeepsNewest, ← List.append_assoc, ← List.append_assoc]
  exact ⟨h₂.1.trans (isSuffix_append_right h₁.1 r₂), h₂.2.trans (isSuffix_append_right h₁.2 u₂)⟩

theorem pop_eq_some {q q' : TxAdvertQueue Hash} {x : Hash} (h : q.pop = some (x, q')) :
    KeepsNewest q q' [] [] ∧ q.toList = x :: q'.toList := by
  rcases q with ⟨_ | ⟨y, retry⟩, _ | ⟨z, incoming⟩⟩
  · simp [pop, size] at h
  all_goals
    simp only [pop_nil_cons, pop_cons, Option.some_inj, Prod.mk.injEq] at h
    obtain ⟨rfl, rfl⟩ := h
    exact ⟨⟨by simp, by simp⟩, rfl⟩

theorem trim_keepsNewest (limit fuel : ℕ) {q q' : TxAdvertQueue Hash}
    (h : trim limit fuel q = some q') : KeepsNewest q q' [] [] := by
  induction fuel generalizing q with
  | zero => cases h; exact keepsNewest_refl _
  | succ fuel ih =>
    rw [trim] at h
    split_ifs at h
    · obtain ⟨⟨x, q₁⟩, hpop, hq₁⟩ := Option.bind_eq_some.1 h
      simpa using (pop_eq_some hpop).1.trans (ih hq₁)
    · cases h; exact keepsNewest_refl _

/-- A retry list is spliced on whole and trimmed from the front. -/
theorem appendHashesToRetryAndMaybeTrim_keepsNewest (limit : ℕ) {q q' : TxAdvertQueue Hash}
    {list l : List Hash} (h : appendHashesToRetryAndMaybeTrim limit q list = some (q', l)) :
    KeepsNewest q q' list [] ∧ q'.toList.Subperm (q.toList ++ list) := by
  obtain ⟨q₂, h₂, hl⟩ := appendHashesToRetryAndMaybeTrim_spec limit q list
  have htrim : ∃ fuel, trim limit fuel { q with txHashesToRetry := q.txHashesToRetry ++ list } =
      some q' := by
    simp only [appendHashesToRetryAndMaybeTrim, Option.map_eq_some', Prod.mk.injEq] at h
    obtain ⟨_, h, rfl, -⟩ := h
    exact ⟨_, h⟩
  obtain ⟨fuel, htrim⟩ := htrim
  rw [h, Option.some_inj, Prod.mk.injEq] at h₂
  obtain ⟨rfl, -⟩ := h₂
  refine ⟨by simpa [KeepsNewest] using trim_keepsNewest limit fuel htrim, ?_⟩
  rw [hl, List.rtake]
  refine (List.drop_sublist _ _).subperm.trans ?_
  simpa [toList] using
    ((@List.perm_append_comm _ list q.incomingTxHashes).append_left q.txHashesToRetry).subperm

/-- Advertised hashes join the incoming list at its back; when the trimming pops any, the newest
`limit` left are all among the advertised ones. -/
theorem queueAndMaybeTrim_keepsNewest (limit : ℕ) {q q' : TxAdvertQueue Hash}
    {txHashes : List Hash} (h : queueAndMaybeTrim limit q txHashes = some q') :
    KeepsNewest q q' [] txHashes ∧ q'.toList.Subperm (q.toList ++ txHashes) := by
  obtain ⟨q₂, h₂, hl⟩ := queueAndMaybeTrim_spec limit q txHashes
  rw [h, Option.some_inj] at h₂
  subst h₂
  refine ⟨?_, by rw [hl, List.rtake]; exact (List.drop_sublist _ _).subperm⟩
  obtain ⟨h₁, h₂⟩ := trim_keepsNewest limit _ h
  simp only [List.append_nil] at h₁ h₂
  refine ⟨by simpa using h₁, ?_⟩
  split_ifs at h₂ with hlong
  · have hlen : q'.incomingTxHashes.length ≤ (txHashes.drop (txHashes.length - limit)).length := by
      have hsize := size_le_of_rtake hl
      simp only [size, List.length_drop] at hsize ⊢
      omega
    exact (List.suffix_of_suffix_length_le h₂ (List.suffix_append _ _) hlen).trans
      ((List.drop_suffix _ _).trans (List.suffix_append _ _))
  · simpa using h₂

/-- What one call keeps and hands out: its lists keep their newest hashes, and the hashes handed
out and kept are among those held and added. -/
theorem step_keepsNewest {q q' : TxAdvertQueue Hash} {c : Call Hash} {out : List Hash}
    (h : q.step c = some (q', out)) :
    KeepsNewest q q' c.retried c.queued ∧
      (out ++ q'.toList).Subperm (q.toList ++ (c.retried ++ c.queued)) := by
  cases c with
  | queueAndMaybeTrim limit txHashes =>
    obtain ⟨q₁, hq, ⟨⟩⟩ := Option.map_eq_some'.1 h
    simpa [Call.retried, Call.queued] using queueAndMaybeTrim_keepsNewest limit hq
  | appendHashesToRetryAndMaybeTrim limit list =>
    obtain ⟨⟨q₁, l⟩, hq, ⟨⟩⟩ := Option.map_eq_some'.1 h
    simpa [Call.retried, Call.queued] using appendHashesToRetryAndMaybeTrim_keepsNewest limit hq
  | pop =>
    obtain ⟨⟨x, q₁⟩, hpop, ⟨⟩⟩ := Option.map_eq_some'.1 h
    obtain ⟨hk, hl⟩ := pop_eq_some hpop
    refine ⟨hk, ?_⟩
    simp only [Call.retried, Call.queued, List.append_nil, hl, List.singleton_append]
    exact List.Subperm.refl _

/-- Across any interleaving of trimming calls, with the limit changing between them, and of
`pop`s: each list of the queue only ever loses hashes at its front, so it holds the newest hashes
put into it, in order; and every hash handed out or still queued was held or put in, no hash
more often than it was. -/
theorem run_keeps_newest (q : TxAdvertQueue Hash) (calls : List (Call Hash))
    {q' : TxAdvertQueue Hash} {out : List Hash} (h : q.run calls = some (q', out)) :
    q'.txHashesToRetry.IsSuffix (q.txHashesToRetry ++ (calls.map Call.retried).flatten) ∧
      q'.incomingTxHashes.IsSuffix (q.incomingTxHashes ++ (calls.map Call.queued).flatten) ∧
      (out ++ q'.toList).Subperm
        (q.toList ++ (calls.map Call.retried).flatten ++ (calls.map Call.queued).flatten) := by
  induction calls generalizing q out with
  | nil => cases h; simp [List.suffix_refl, List.Subperm.refl]
  | cons c cs ih =>
    obtain ⟨⟨q₁, out₁⟩, hstep, hrest⟩ := Option.bind_eq_some.1 h
    obtain ⟨⟨q₂, out₂⟩, hrun, ⟨⟩⟩ := Option.map_eq_some'.1 hrest
    obtain ⟨hk, hsub⟩ := step_keepsNewest hstep
    obtain ⟨h₁, h₂, h₃⟩ := ih _ hrun
    obtain ⟨h₄, h₅⟩ := hk.trans (show KeepsNewest q₁ _ _ _ from ⟨h₁, h₂⟩)
    refine ⟨by simpa using h₄, by simpa using h₅, ?_⟩
    simp only [List.map_cons, List.flatten_cons, List.append_assoc] at h₃ ⊢
    have hmid := (List.subperm_append_right ((cs.map Call.retried).flatten ++
      (cs.map Call.queued).flatten)).2 hsub
    simp only [List.append_assoc] at hmid
    refine ((List.subperm_append_left out₁).2 h₃).trans ?_
    exact hmid.trans (((List.perm_append_comm_assoc _ _ _).append_left _).append_left _).subperm

/-- Three hashes held, two advertised under a limit of three, one popped, and one retried under
a limit of two, which the trimming pops at once. -/
theorem run_keeps_newest_advert :
    (⟨[1], [2, 3]⟩ : TxAdvertQueue ℕ).run
        [.queueAndMaybeTrim 3 [4, 5], .pop, .appendHashesToRetryAndMaybeTrim 2 [6]] =
      some (⟨[], [4, 5]⟩, [3]) ∧
    List.IsSuffix [] ([1] ++ [6]) ∧ List.IsSuffix [4, 5] ([2, 3] ++ [4, 5]) ∧
    ([3] ++ [4, 5]).Subperm ([1, 2, 3] ++ [6] ++ [4, 5]) :=
  ⟨rfl, run_keeps_newest ⟨[1], [2, 3]⟩
    [.queueAndMaybeTrim 3 [4, 5], .pop, .appendHashesToRetryAndMaybeTrim 2 [6]] rfl⟩

end Run

end TxAdvertQueue
end Hcnet.Overlay
