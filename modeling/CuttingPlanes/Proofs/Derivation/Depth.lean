import CuttingPlanes.Proofs.Derivation.Queue

/-!
# How deep a sum is

Each place of the queue of a sum has a depth: none for a step that was listed, and for a sum
one more than the deeper of the two places that it was taken from (`Deepens`). The queue never
holds more than two depths, and these follow each other, the smaller one in front. A place of
the greater depth stands for two of the smaller one, so the number of places, counted in this
way, is halved and rounded up when the last place of a depth is gone (`Level.merge`). A sum of
`n` steps is therefore as deep as `n` can be halved (`depth_law`).
-/

namespace CuttingPlanes.Derivation

variable {d d' : Derivation} {queue : List StepId} {merged : List Step}

/-! ## Places of the queue -/

/-- A step that stands in the queue and how many sums it is made of, one inside the other. -/
structure Place where
  step : StepId
  depth : Nat

namespace Place

/-- The place of a step that was there before. -/
def listed (step : StepId) : Place := ⟨step, 0⟩

/-- The place of the sum of two places. -/
def sum (left right : Place) (step : StepId) : Place := ⟨step, max left.depth right.depth + 1⟩

theorem map_step_listed (queue : List StepId) : (queue.map listed).map step = queue := by
  rw [List.map_map]
  exact List.map_id queue

theorem map_depth_listed (queue : List StepId) :
    (queue.map listed).map depth = List.replicate queue.length 0 := by
  rw [List.map_map]
  exact List.map_const

end Place

variable {places rest : List Place}

/-- Merges at the front of a queue, with the depths of its places. -/
inductive Deepens : Derivation → List Place → List Step → Derivation → List Place → Prop
  | nil (d : Derivation) (places : List Place) : Deepens d places [] d places
  | cons {d d₁ d' : Derivation} {left right : Place} {id : StepId} {c : Constraint}
      {places rest : List Place} {merged : List Step}
      (hsum : d.sumOf left.step right.step = .ok c)
      (hadd : add left.step right.step d = .ok id d₁)
      (hdeepens : Deepens d₁ (places ++ [left.sum right id]) merged d' rest) :
      Deepens d (left :: right :: places) (⟨id, .derived, c, [left.step, right.step]⟩ :: merged)
        d' rest

/-- Whatever is merged has depths. -/
theorem Merges.exists_deepens {steps : List StepId}
    (h : Merges d (places.map Place.step) merged d' steps) :
    ∃ rest, rest.map Place.step = steps ∧ Deepens d places merged d' rest := by
  generalize hqueue : places.map Place.step = queue at h
  induction h generalizing places with
  | nil d queue => exact ⟨places, hqueue, .nil d places⟩
  | @cons d d₁ d' left right id c queue steps merged hsum hadd _ ih =>
    obtain ⟨l, tail, rfl, rfl, htail⟩ := List.map_eq_cons_iff.mp hqueue
    obtain ⟨r, places, rfl, rfl, rfl⟩ := List.map_eq_cons_iff.mp htail
    have hback : (places ++ [l.sum r id]).map Place.step = places.map Place.step ++ [id] :=
      List.map_append
    obtain ⟨rest, hrest, hdeepens⟩ := ih hback
    exact ⟨rest, hrest, .cons hsum hadd hdeepens⟩

/-! ## Two depths -/

/-- The depths are first all `k` and then all `k + 1`, and what they are merged to has the
given depth. -/
def ComesTo (depth : Nat) (depths : List Nat) : Prop :=
  ∃ k low high, depths = List.replicate low k ++ List.replicate high (k + 1) ∧
    k + Nat.clog 2 (low + 2 * high) = depth

variable {m n depth : Nat} {depths : List Nat}

theorem comesTo_replicate (n : Nat) : ComesTo (Nat.clog 2 n) (List.replicate n 0) :=
  ⟨0, n, 0, (List.append_nil _).symm, Nat.zero_add _⟩

theorem clog_of_half (hn : 2 ≤ n) (hhalf : (n + 1) / 2 = m) : Nat.clog 2 n = Nat.clog 2 m + 1 := by
  rw [← hhalf]
  exact Nat.clog_of_two_le (by decide) hn

/-- A sum goes behind the places of its depth. When it is taken from the last place of the
smaller depth, or from none of these, the greater depth is the smaller one from there on. -/
theorem ComesTo.merge (h : ComesTo depth (m :: n :: depths)) :
    ComesTo depth (depths ++ [max m n + 1]) := by
  obtain ⟨k, low, high, hdepths, rfl⟩ := h
  match low, high, hdepths with
  | 0, high + 2, hdepths =>
    obtain ⟨rfl, rfl, rfl⟩ : m = k + 1 ∧ n = k + 1 ∧ depths = List.replicate high (k + 1) := by
      simpa [List.replicate_succ] using hdepths
    refine ⟨k + 1, high, 1, by rw [Nat.max_self]; rfl, ?_⟩
    rw [clog_of_half (n := 0 + 2 * (high + 2)) (m := high + 2 * 1) (by omega) (by omega)]
    omega
  | 1, high + 1, hdepths =>
    obtain ⟨rfl, rfl, rfl⟩ : m = k ∧ n = k + 1 ∧ depths = List.replicate high (k + 1) := by
      simpa [List.replicate_succ] using hdepths
    refine ⟨m + 1, high, 1, by rw [Nat.max_eq_right (Nat.le_succ m)]; rfl, ?_⟩
    rw [clog_of_half (n := 1 + 2 * (high + 1)) (m := high + 2 * 1) (by omega) (by omega)]
    omega
  | low + 2, high, hdepths =>
    obtain ⟨rfl, rfl, rfl⟩ : m = k ∧ n = k ∧
        depths = List.replicate low k ++ List.replicate high (k + 1) := by
      simpa [List.replicate_succ] using hdepths
    refine ⟨n, low, high + 1, ?_, ?_⟩
    · rw [Nat.max_self, List.append_assoc, List.replicate_succ']
    · rw [show low + 2 * (high + 1) = low + 2 + 2 * high by omega]

/-- One place has the depth that it comes to. -/
theorem ComesTo.eq (h : ComesTo depth [n]) : n = depth := by
  obtain ⟨k, low, high, hdepths, rfl⟩ := h
  match low, high, hdepths with
  | 0, 1, hdepths =>
    obtain rfl : n = k + 1 := List.singleton_inj.mp hdepths
    exact (congrArg (k + ·) (Nat.clog_eq_one (by decide) (by decide))).symm
  | 1, 0, hdepths =>
    obtain rfl : n = k := List.singleton_inj.mp hdepths
    exact (congrArg (n + ·) (Nat.clog_one_right 2)).symm

theorem Deepens.comesTo (h : Deepens d places merged d' rest)
    (hplaces : ComesTo depth (places.map Place.depth)) : ComesTo depth (rest.map Place.depth) := by
  induction h with
  | nil d places => exact hplaces
  | cons hsum hadd _ ih =>
    refine ih ?_
    rw [List.map_append]
    exact hplaces.merge

/-! ## The law -/

theorem isLeast_clog (n : Nat) : IsLeast {k | n ≤ 2 ^ k} (Nat.clog 2 n) :=
  ⟨Nat.le_pow_clog (by decide) n, fun _ hk => Nat.clog_le_of_le_pow hk⟩

theorem Deepens.isLeast {last : Place} (h : Deepens d (queue.map .listed) merged d' [last]) :
    IsLeast {k | queue.length ≤ 2 ^ k} last.depth := by
  have hlisted := comesTo_replicate queue.length
  rw [← Place.map_depth_listed] at hlisted
  rw [(h.comesTo hlisted).eq]
  exact isLeast_clog queue.length

/-- A sum over steps that succeeds has merged them two by two until one place was left, which
is the result; and wherever steps are merged to one place, this is only as deep as it has to
be, if each sum is one deeper than the deeper one of its operands. -/
theorem depth_law {result : Option StepId} (hne : queue ≠ []) (h : sum queue d = .ok result d') :
    ∃ merged last, result = some last.step ∧ AddsOnly d merged d' ∧
      Deepens d (queue.map .listed) merged d' [last] ∧
      ∀ merged d' last, Deepens d (queue.map .listed) merged d' [last] →
        IsLeast {k | queue.length ≤ 2 ^ k} last.depth := by
  obtain ⟨r, merged, rfl, hmerges⟩ := exists_merges_of_sum_ok h hne
  have hadds := hmerges.addsOnly
  rw [← Place.map_step_listed queue] at hmerges
  obtain ⟨rest, hrest, hdeepens⟩ := hmerges.exists_deepens
  obtain ⟨last, rfl, rfl⟩ := List.map_eq_singleton_iff.mp hrest
  exact ⟨merged, last, rfl, hadds, hdeepens, fun _ _ _ hlast => hlast.isLeast⟩

/-- Five places come to three depths: the one that is left over in the first round goes with a
sum of the second one. -/
theorem depth_law_leftOver :
    let d := (start (.new .binary .unlimited)).runAll refusedRequests
    ∃ merged last d', sum [⟨0⟩, ⟨1⟩, ⟨0⟩, ⟨1⟩, ⟨0⟩] d = .ok (some last.step) d' ∧
      Deepens d ([⟨0⟩, ⟨1⟩, ⟨0⟩, ⟨1⟩, ⟨0⟩].map .listed) merged d' [last] ∧ last.depth = 3 := by
  intro d
  have hresult : (match sum [⟨0⟩, ⟨1⟩, ⟨0⟩, ⟨1⟩, ⟨0⟩] d with
      | .ok _ _ => true
      | .error _ _ => false) = true := by decide +kernel
  cases hsum : sum [⟨0⟩, ⟨1⟩, ⟨0⟩, ⟨1⟩, ⟨0⟩] d with
  | error e d' =>
    rw [hsum] at hresult
    cases hresult
  | ok result d' =>
    obtain ⟨merged, last, rfl, -, hdeepens, hleast⟩ := depth_law (List.cons_ne_nil _ _) hsum
    have hdepth : last.depth = 3 :=
      (hleast merged d' last hdeepens).unique (isLeast_clog 5)
    exact ⟨merged, last, d', rfl, hdeepens, hdepth⟩

end CuttingPlanes.Derivation
