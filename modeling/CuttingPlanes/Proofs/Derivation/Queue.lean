import CuttingPlanes.Proofs.Derivation.Arena
import CuttingPlanes.Proofs.Derivation.Summation

/-!
# The queue of a sum

A sum takes two steps from the front of its queue and puts theirs at its end. What has been
taken, in order, and what is still there are together what the queue held at first and what
has been recorded since (`Merges.hints_append`), and the sums over the queue never change
(`Merges.exists_knows`). So a sum that succeeds has recorded one step less than it was given,
has used everything once but its result, and the result is the exact sum (`sum_law`).
-/

namespace CuttingPlanes

/-- What a writer is asked for when a derived step is recorded. -/
def Step.derivedOp (s : Step) : Operation := .derived s.constraint s.hints

namespace Writer

open Actions

variable {w v w₁ w' : Writer} {ss ts : List Step}

/-- The second writer is where the first one stands when it has been asked for the given
derived steps and has recorded these and nothing else. -/
structure Records (w : Writer) (ss : List Step) (w' : Writer) : Prop where
  records_eq : (w.runAll (ss.map Step.derivedOp)).1 = ss.map .step
  agrees : w'.Agrees (w.runAll (ss.map Step.derivedOp)).2

theorem records_nil (w : Writer) : w.Records [] w := ⟨rfl, .refl w⟩

theorem records_of_record {c : Constraint} {hints : List StepId} {id : StepId}
    (h : record .derived c hints w = .ok id w') : w.Records [⟨id, .derived, c, hints⟩] w' := by
  have hop : (Operation.derived c hints).perform = (do
      let id ← Writer.record .derived c hints
      return some (.step ⟨id, .derived, c, hints⟩)) := rfl
  have hperform : (Operation.derived c hints).perform w =
      .ok (some (.step ⟨id, .derived, c, hints⟩)) w' := by
    rw [hop, bind_of_ok h]
    rfl
  have hrun := runAll_of_ok hperform []
  exact ⟨congrArg Prod.fst hrun, (congrArg Prod.snd hrun) ▸ .refl w'⟩

theorem Records.of_agrees (h : w.Records ss w') (hagrees : w.Agrees v) : v.Records ss w' := by
  obtain ⟨hrecords, hbehind⟩ := hagrees.runAll (ss.map Step.derivedOp)
  exact ⟨hrecords.symm.trans h.records_eq, h.agrees.trans hbehind⟩

theorem Records.append (h : w.Records ss w₁) (h' : w₁.Records ts w') :
    w.Records (ss ++ ts) w' := by
  obtain ⟨hrecords, hagrees⟩ := h.agrees.runAll (ts.map Step.derivedOp)
  constructor
  · rw [List.map_append, runAll_append, List.map_append, h.records_eq, ← hrecords, h'.records_eq]
  · rw [List.map_append, runAll_append]
    exact h'.agrees.trans hagrees

end Writer

namespace Derivation

open Actions Writer Constraint

variable {w : Writer} {ops : List Operation} {d d' d₁ : Derivation} {left right id : StepId}
  {c : Constraint} {queue rest : List StepId} {cs : List Constraint} {merged : List Step}
  {s : Step}

/-! ## What is known -/

/-- The next step of the writer is the first one that is not known. -/
def Aligned (d : Derivation) : Prop := d.writer.next.index = d.first.index + d.known.size

theorem HasAsked.aligned (h : HasAsked w ops d) : d.Aligned := by
  have hsize : d.known.size = (stepsOf (w.runAll ops).1).length := by
    rw [← Array.length_toList, h.known_eq, List.length_map]
  rw [Aligned, h.next_eq, h.first_eq, hsize]

theorem AddsOnly.aligned (h : AddsOnly d merged d') (haligned : d.Aligned) : d'.Aligned := by
  have hsize : d'.known.size = d.known.size + merged.length := by
    rw [← Array.length_toList, h.known_eq, List.length_append, Array.length_toList,
      List.length_map]
  rw [Aligned, h.next_eq, h.first_eq, hsize, haligned, Nat.add_assoc]

theorem AddsOnly.constraint? (h : AddsOnly d merged d') (hc : d.constraint? id = some c) :
    d'.constraint? id = some c := by
  rw [Derivation.constraint?, Option.ite_none_right_eq_some, ← Array.getElem?_toList] at hc ⊢
  obtain ⟨hle, hknown⟩ := hc
  have hlt := (List.getElem?_eq_some_iff.mp hknown).1
  rw [h.first_eq, h.known_eq, List.getElem?_append_left hlt]
  exact ⟨hle, hknown⟩

theorem AddsOnly.constraint?_added (h : AddsOnly d [s] d') (haligned : d.Aligned) :
    d'.constraint? s.id = some s.constraint := by
  have hindex : s.id.index = d.first.index + d.known.size :=
    (numberedFrom_cons.mp h.numbered).1.trans haligned
  rw [Derivation.constraint?, Option.ite_none_right_eq_some, ← Array.getElem?_toList, h.first_eq,
    h.known_eq, hindex, Nat.add_sub_cancel_left, StepId.le_def, hindex]
  exact ⟨Nat.le_add_right _ _, List.getElem?_concat_length⟩

/-- What is known comes before the next step. -/
theorem Knows.index_lt (hknown : d.Knows queue cs) (haligned : d.Aligned) :
    ∀ id ∈ queue, id.index < d.writer.next.index := by
  intro id hid
  induction hknown with
  | nil => cases hid
  | @cons first c rest cs hc _ ih =>
    rcases List.mem_cons.mp hid with rfl | hid
    · rw [Derivation.constraint?, Option.ite_none_right_eq_some, StepId.le_def] at hc
      obtain ⟨hle, hget⟩ := hc
      have hlt := (Array.getElem?_eq_some_iff.mp hget).1
      rw [haligned]
      omega
    · exact ih hid

theorem Knows.of_addsOnly (hknown : d.Knows queue cs) (h : AddsOnly d merged d') :
    d'.Knows queue cs :=
  hknown.imp fun _ _ hc => h.constraint? hc

/-! ## One merge -/

theorem add_records (h : add left right d = .ok id d') (hsum : d.sumOf left right = .ok c) :
    d.writer.Records [⟨id, .derived, c, [left, right]⟩] d'.writer := by
  rw [add_of_sumOf_ok hsum] at h
  -- what is noted before makes no difference to the record
  have hnote : (d.writer.note (.adding left right c)).Agrees d.writer := (Agrees.refl _).note _
  obtain ⟨o, hrecord⟩ | ⟨e, o, hrecord, -⟩ :=
    record_cases (d.writer.note (.adding left right c)) .derived c [left, right]
  · rw [recordKnown_of_ok hrecord] at h
    cases h
    exact (records_of_record hrecord).of_agrees hnote
  · rw [recordKnown_of_error hrecord] at h
    cases h

/-! ## Many merges -/

/-- A sum that succeeds has merged its queue until one step was left. -/
theorem exists_merges_of_sum_ok {result : Option StepId} (h : sum queue d = .ok result d')
    (hne : queue ≠ []) : ∃ r merged, result = some r ∧ Merges d queue merged d' [r] := by
  fun_induction sum queue generalizing d with
  | case1 => exact absurd rfl hne
  | case2 step =>
    cases h
    exact ⟨step, [], rfl, .nil _ _⟩
  | case3 left right queue ih =>
    cases hadd : add left right d with
    | ok step d₁ =>
      rw [bind_of_ok hadd] at h
      have hlast : queue ++ [step] ≠ [] :=
        List.append_ne_nil_of_right_ne_nil queue (List.cons_ne_nil step [])
      obtain ⟨r, merged, rfl, hmerges⟩ := ih step h hlast
      obtain ⟨c, hsum, -⟩ := add_eq_ok hadd
      exact ⟨r, _, rfl, .cons hsum hadd hmerges⟩
    | error e d₁ =>
      rw [bind_of_error hadd] at h
      cases h

theorem Merges.records (h : Merges d queue merged d' rest) :
    d.writer.Records merged d'.writer := by
  induction h with
  | nil d queue => exact records_nil d.writer
  | cons hsum hadd _ ih => exact (add_records hadd hsum).append ih

theorem Merges.derived (h : Merges d queue merged d' rest) :
    ∀ s ∈ merged, s.kind = .derived ∧ s.hints.length = 2 := by
  induction h with
  | nil d queue => exact nofun
  | cons hsum hadd _ ih => exact List.forall_mem_cons.mpr ⟨⟨rfl, rfl⟩, ih⟩

/-- Each merge makes the queue shorter by one. -/
theorem Merges.length_eq (h : Merges d queue merged d' rest) :
    merged.length + rest.length = queue.length := by
  induction h with
  | nil d queue => exact Nat.zero_add _
  | cons hsum hadd _ ih =>
    rw [List.length_append, List.length_singleton] at ih
    simp only [List.length_cons]
    omega

/-- What has been used and what is left, in order, are what there was and what was added. -/
theorem Merges.hints_append (h : Merges d queue merged d' rest) :
    merged.flatMap Step.hints ++ rest = queue ++ merged.map Step.id := by
  induction h with
  | nil d queue => exact (List.append_nil queue).symm
  | @cons d d₁ d' left right id c queue rest merged _ _ _ ih =>
    rw [List.append_assoc] at ih
    rw [List.flatMap_cons, List.append_assoc, ih]
    rfl

/-- The constraints that are left have the same sum as those that there were. -/
theorem Merges.exists_knows (h : Merges d queue merged d' rest) (haligned : d.Aligned)
    (hknown : d.Knows queue cs) :
    ∃ cs', d'.Knows rest cs' ∧ ∀ e : Constraint, e.IsSumOf cs' → e.IsSumOf cs := by
  induction h generalizing cs with
  | nil d queue => exact ⟨cs, hknown, fun _ => id⟩
  | @cons d d₁ d' left right id c queue rest merged hsum hadd _ ih =>
    obtain ⟨l, _, hl, htail, rfl⟩ := List.forall₂_cons_left_iff.mp hknown
    obtain ⟨r, cs, hr, hqueue, rfl⟩ := List.forall₂_cons_left_iff.mp htail
    obtain ⟨l', r', hl', hr', hadded⟩ := sumOf_eq_ok hsum
    cases hl.symm.trans hl'
    cases hr.symm.trans hr'
    obtain ⟨c', hsum', -, hadds⟩ := add_eq_ok hadd
    cases hsum.symm.trans hsum'
    have hknown₁ : d₁.Knows (queue ++ [id]) (cs ++ [c]) :=
      List.rel_append (Knows.of_addsOnly hqueue hadds)
        (.cons (hadds.constraint?_added haligned) .nil)
    obtain ⟨cs', hknown', hsums⟩ := ih (hadds.aligned haligned) hknown₁
    exact ⟨cs', hknown', fun e he => (hsums e he).replace hadded⟩

/-! ## The law -/

/-- The derivation `d'` is what a queue whose steps have the given constraints has made of
`d`, and the step `r` is the result. The derived steps that were recorded are numbered one
after the other. Their hints and the result, in order, are the queue and these steps, so
that every place of the queue and every step but the result is used once. -/
structure Summed (d : Derivation) (queue : List StepId) (cs : List Constraint)
    (merged : List Step) (r : StepId) (d' : Derivation) : Prop where
  length_eq : merged.length + 1 = queue.length
  adds : AddsOnly d merged d'
  records : d.writer.Records merged d'.writer
  derived : ∀ s ∈ merged, s.kind = .derived ∧ s.hints.length = 2
  single : queue.length = 1 → queue = [r] ∧ d' = d
  last : queue.length ≠ 1 → (merged.map Step.id).getLast? = some r
  hints_append : merged.flatMap Step.hints ++ [r] = queue ++ merged.map Step.id
  listed_once : queue.length ≠ 1 →
    ∀ id ∈ queue, (merged.flatMap Step.hints).count id = queue.count id
  merged_once : ∀ s ∈ merged, s.id ≠ r → (merged.flatMap Step.hints).count s.id = 1
  isSum : ∃ c, constraint r d' = .ok c d' ∧ c.IsSumOf cs

section Result

variable {r : StepId}

theorem Merges.single (h : Merges d queue merged d' [r]) (hlength : queue.length = 1) :
    queue = [r] ∧ d' = d := by
  have hshorter := h.length_eq
  rw [hlength, List.length_singleton, Nat.add_eq_right, List.length_eq_zero_iff] at hshorter
  subst hshorter
  cases h
  exact ⟨rfl, rfl⟩

theorem Merges.last (h : Merges d queue merged d' [r]) (hlength : queue.length ≠ 1) :
    (merged.map Step.id).getLast? = some r := by
  have hshorter := h.length_eq
  rw [List.length_singleton] at hshorter
  have hne : merged.map Step.id ≠ [] := by
    rw [ne_eq, List.map_eq_nil_iff, ← List.length_eq_zero_iff]
    omega
  have hlast := congrArg List.getLast? h.hints_append
  rw [List.getLast?_append_of_ne_nil _ hne, List.getLast?_concat] at hlast
  exact hlast.symm

/-- How often a step is used, and once more if it is the result, is how often it stood in the
queue at first or has been recorded since. -/
theorem Merges.count_hints (h : Merges d queue merged d' [r]) (id : StepId) :
    (merged.flatMap Step.hints).count id + [r].count id =
      queue.count id + (merged.map Step.id).count id := by
  rw [← List.count_append, h.hints_append, List.count_append]

theorem Merges.listed_once (h : Merges d queue merged d' [r]) (haligned : d.Aligned)
    (hknown : d.Knows queue cs) (hlength : queue.length ≠ 1) (hid : id ∈ queue) :
    (merged.flatMap Step.hints).count id = queue.count id := by
  have hlt := hknown.index_lt haligned id hid
  -- neither a recorded step nor, then, the result was known before
  have hnot : id ∉ merged.map Step.id :=
    fun hmem => absurd hlt (Nat.not_lt.mpr (h.addsOnly.numbered.le_index hmem))
  have hne : id ∉ [r] := by
    rw [List.mem_singleton]
    rintro rfl
    exact hnot (List.mem_of_getLast? (h.last hlength))
  have hcount := h.count_hints id
  rwa [List.count_eq_zero_of_not_mem hnot, List.count_eq_zero_of_not_mem hne, Nat.add_zero,
    Nat.add_zero] at hcount

theorem Merges.merged_once (h : Merges d queue merged d' [r]) (haligned : d.Aligned)
    (hknown : d.Knows queue cs) (hs : s ∈ merged) (hne : s.id ≠ r) :
    (merged.flatMap Step.hints).count s.id = 1 := by
  have hmem : s.id ∈ merged.map Step.id := List.mem_map_of_mem hs
  have hle := h.addsOnly.numbered.le_index hmem
  have hnot : s.id ∉ queue :=
    fun hqueue => absurd (hknown.index_lt haligned s.id hqueue) (Nat.not_lt.mpr hle)
  have hone : (merged.map Step.id).count s.id = 1 :=
    List.count_eq_one_of_mem h.addsOnly.numbered.nodup hmem
  have hresult : s.id ∉ [r] := fun hr => hne (List.mem_singleton.mp hr)
  have hcount := h.count_hints s.id
  rwa [List.count_eq_zero_of_not_mem hnot, List.count_eq_zero_of_not_mem hresult, hone,
    Nat.add_zero, Nat.zero_add] at hcount

theorem Merges.summed (h : Merges d queue merged d' [r]) (haligned : d.Aligned)
    (hknown : d.Knows queue cs) : Summed d queue cs merged r d' where
  length_eq := h.length_eq
  adds := h.addsOnly
  records := h.records
  derived := h.derived
  single := h.single
  last := h.last
  hints_append := h.hints_append
  listed_once hlength _ hid := h.listed_once haligned hknown hlength hid
  merged_once _ hs hne := h.merged_once haligned hknown hs hne
  isSum := by
    obtain ⟨cs', hknown', hsums⟩ := h.exists_knows haligned hknown
    obtain ⟨c, _, hc, hnil, rfl⟩ := List.forall₂_cons_left_iff.mp hknown'
    obtain rfl := List.forall₂_nil_left_iff.mp hnil
    exact ⟨c, constraint_of_some hc, hsums c (isSumOf_singleton c)⟩

end Result

/-- In every state of a derivation, on any writer: a sum over no steps gives no step and
records nothing, and one over known steps, if it succeeds, gives the exact sum of all of
them, each listed step and each sum on the way used once. -/
theorem sum_law (w : Writer) (requests : List Request) :
    let d := (start w).runAll requests
    sum [] d = .ok none d ∧
    ∀ queue cs, queue ≠ [] → d.Knows queue cs → ∀ result d', sum queue d = .ok result d' →
      ∃ r merged, result = some r ∧ Summed d queue cs merged r d' := by
  have haligned := (hasAsked_runAll w requests).aligned
  refine ⟨?_, fun queue cs hne hknown result d' hsum => ?_⟩
  · rw [sum]
    rfl
  · obtain ⟨r, merged, rfl, hmerges⟩ := exists_merges_of_sum_ok hsum hne
    exact ⟨r, merged, rfl, hmerges.summed haligned hknown⟩

/-- The first step is listed twice, and the sum is formed behind requests that have failed. -/
theorem sum_law_refusedRequests :
    let d := (start (.new .binary .unlimited)).runAll refusedRequests
    ∃ cs merged d', d.Knows [⟨0⟩, ⟨1⟩, ⟨0⟩] cs ∧ sum [⟨0⟩, ⟨1⟩, ⟨0⟩] d = .ok (some ⟨5⟩) d' ∧
      Summed d [⟨0⟩, ⟨1⟩, ⟨0⟩] cs merged ⟨5⟩ d' := by
  intro d
  obtain ⟨c₀, hc₀⟩ : ∃ c, d.constraint? ⟨0⟩ = some c :=
    Option.isSome_iff_exists.mp (by decide +kernel)
  obtain ⟨c₁, hc₁⟩ : ∃ c, d.constraint? ⟨1⟩ = some c :=
    Option.isSome_iff_exists.mp (by decide +kernel)
  have hknows : d.Knows [⟨0⟩, ⟨1⟩, ⟨0⟩] [c₀, c₁, c₀] := .cons hc₀ (.cons hc₁ (.cons hc₀ .nil))
  have hresult : (match sum [⟨0⟩, ⟨1⟩, ⟨0⟩] d with
      | .ok result _ => result
      | .error _ _ => none) = some ⟨5⟩ := by decide +kernel
  cases hsum : sum [⟨0⟩, ⟨1⟩, ⟨0⟩] d with
  | error e d' =>
    rw [hsum] at hresult
    cases hresult
  | ok result d' =>
    rw [hsum] at hresult
    obtain ⟨r, merged, rfl, hsummed⟩ := (sum_law (.new .binary .unlimited) refusedRequests).2
      [⟨0⟩, ⟨1⟩, ⟨0⟩] [c₀, c₁, c₀] (List.cons_ne_nil _ _) hknows result d' hsum
    cases hresult
    exact ⟨[c₀, c₁, c₀], merged, d', hknows, rfl, hsummed⟩

end Derivation

end CuttingPlanes
