import CuttingPlanes.Proofs.LinearForm.Value

/-!
# Coefficients of linear forms

A form gives an integer to every variable: its coefficient, or zero if the variable
does not stand in the form. A sum of forms adds these integers (`coeff_add`), and a
form without zero coefficients that gives zero to every variable has no terms
(`terms_eq_nil`). Forming a sum can only fail at a variable of both forms whose
coefficients have no 64-bit sum (`exists_of_add_error`).
-/

namespace CuttingPlanes

namespace LinearForm

def lookup (ts : List Term) (v : Variable) : Option Int64 := (ts.find? (·.var = v)).map Term.coeff

/-- The coefficient of a variable, zero if it does not stand in the form. -/
def coeff (f : LinearForm) (v : Variable) : Int := ((f.coeff? v).map Int64.toInt).getD 0

def Reduced (f : LinearForm) : Prop := ∀ t ∈ f.terms, t.coeff ≠ 0

@[simp] theorem lookup_nil (v : Variable) : lookup [] v = none := rfl

theorem lookup_cons (t : Term) (ts : List Term) (v : Variable) :
    lookup (t :: ts) v = if t.var = v then some t.coeff else lookup ts v := by
  unfold lookup
  by_cases h : t.var = v <;> simp [h]

theorem mem_of_lookup {ts : List Term} {v : Variable} {c : Int64} (h : lookup ts v = some c) :
    ⟨c, v⟩ ∈ ts := by
  obtain ⟨t, ht, rfl⟩ := Option.map_eq_some_iff.mp h
  have hv : t.var = v := by simpa using List.find?_some ht
  subst hv
  exact List.mem_of_find?_eq_some ht

theorem lookup_eq_none_iff {ts : List Term} {v : Variable} :
    lookup ts v = none ↔ ∀ t ∈ ts, t.var ≠ v := by
  simp [lookup]

theorem lookup_eq_none_of_lt {ts : List Term} {v : Variable} (h : ∀ t ∈ ts, v < t.var) :
    lookup ts v = none := by
  rw [lookup_eq_none_iff]
  intro t ht he
  exact Variable.lt_irrefl v (he ▸ h t ht)

/-- In ascending terms a variable has the coefficient of the term in which it stands. -/
theorem lookup_eq_some_iff {ts : List Term} (h : Ascending ts) {v : Variable} {c : Int64} :
    lookup ts v = some c ↔ ⟨c, v⟩ ∈ ts := by
  apply Iff.intro mem_of_lookup
  intro hmem
  induction ts with
  | nil => simp at hmem
  | cons t ts ih =>
    obtain ⟨hlt, hts⟩ := List.pairwise_cons.mp h
    rw [lookup_cons]
    rcases List.mem_cons.mp hmem with rfl | hmem
    · simp
    · have hne : t.var ≠ v := fun he => Variable.lt_irrefl t.var (he ▸ hlt _ hmem)
      rw [if_neg hne]
      exact ih hts hmem

/-! ## Sums -/

/-- The coefficient that a sum gives to a variable, by those of the summands. -/
def addCoeff : Option Int64 → Option Int64 → Option Int64
  | none, d => d
  | c, none => c
  | some c, some d => (fit? (c.toInt + d.toInt)).filter (· ≠ 0)

@[simp] theorem addCoeff_none_right (c : Option Int64) : addCoeff c none = c := by
  cases c <;> rfl

theorem lookup_addTerms {ss ts us : List Term} (hs : Ascending ss) (ht : Ascending ts)
    (h : addTerms ss ts = .ok us) (v : Variable) :
    lookup us v = addCoeff (lookup ss v) (lookup ts v) := by
  fun_induction addTerms ss ts generalizing us with
  | case1 ts => cases h; rfl
  | case2 ss => cases h; simp
  | case3 s ss t ts hlt ih =>
    obtain ⟨us, hus, rfl⟩ := map_eq_ok h
    rw [lookup_cons, lookup_cons s, ih (List.pairwise_cons.mp hs).2 ht hus]
    by_cases hv : s.var = v
    · have hnone : lookup (t :: ts) v = none :=
        lookup_eq_none_of_lt (hv ▸ lt_of_ascending_cons ht hlt)
      simp [hv, hnone]
    · simp [hv]
  | case4 s ss t ts _ hlt ih =>
    obtain ⟨us, hus, rfl⟩ := map_eq_ok h
    rw [lookup_cons, lookup_cons t, ih hs (List.pairwise_cons.mp ht).2 hus]
    by_cases hv : t.var = v
    · have hnone : lookup (s :: ss) v = none :=
        lookup_eq_none_of_lt (hv ▸ lt_of_ascending_cons hs hlt)
      simp [hv, hnone, addCoeff]
    · simp [hv]
  | case5 => cases h
  | case6 s ss t ts hst hts hc ih =>
    obtain ⟨hss, hs⟩ := List.pairwise_cons.mp hs
    obtain ⟨htt, ht⟩ := List.pairwise_cons.mp ht
    have he : s.var = t.var := Variable.eq_of_not_lt hst hts
    rw [lookup_cons, lookup_cons, ih hs ht h, ← he]
    by_cases hv : s.var = v
    · -- both coefficients are gone, and the variable stands nowhere else
      have hnone : lookup ss v = none := lookup_eq_none_of_lt (hv ▸ hss)
      have hnone' : lookup ts v = none := lookup_eq_none_of_lt (hv ▸ he ▸ htt)
      simp [hv, hnone, hnone', addCoeff, hc, Option.filter]
    · simp [hv]
  | case7 s ss t ts hst hts c hc hne ih =>
    obtain ⟨us, hus, rfl⟩ := map_eq_ok h
    obtain ⟨-, hs⟩ := List.pairwise_cons.mp hs
    obtain ⟨-, ht⟩ := List.pairwise_cons.mp ht
    have he : s.var = t.var := Variable.eq_of_not_lt hst hts
    rw [lookup_cons, lookup_cons, lookup_cons, ih hs ht hus, ← he]
    by_cases hv : s.var = v
    · simp [hv, addCoeff, hc, hne, Option.filter]
    · simp [hv]

theorem coeff?_add {f g h : LinearForm} (hadd : f.add g = .ok h) (v : Variable) :
    h.coeff? v = addCoeff (f.coeff? v) (g.coeff? v) :=
  lookup_addTerms f.ascending g.ascending (addTerms_of_add hadd) v

theorem map_eq_error {ε α β : Type} {f : α → β} {x : Except ε α} {e : ε} (h : f <$> x = .error e) :
    x = .error e := by
  cases x with
  | error e => cases h; rfl
  | ok a => cases h

/-- An addition that fails names a variable of both forms whose sum does not fit. -/
theorem exists_of_addTerms_error {ss ts : List Term} {v : Variable}
    (h : addTerms ss ts = .error v) :
    ∃ s ∈ ss, ∃ t ∈ ts, s.var = v ∧ t.var = v ∧ fit? (s.coeff.toInt + t.coeff.toInt) = none := by
  fun_induction addTerms ss ts with
  | case1 => cases h
  | case2 => cases h
  | case3 s ss t ts _ ih =>
    obtain ⟨s', hs, rest⟩ := ih (map_eq_error h)
    exact ⟨s', List.mem_cons_of_mem _ hs, rest⟩
  | case4 s ss t ts _ _ ih =>
    obtain ⟨s', hs, t', ht, rest⟩ := ih (map_eq_error h)
    exact ⟨s', hs, t', List.mem_cons_of_mem _ ht, rest⟩
  | case5 s ss t ts hst hts hc =>
    cases h
    exact ⟨s, by simp, t, by simp, rfl, (Variable.eq_of_not_lt hst hts).symm, hc⟩
  | case6 s ss t ts _ _ _ ih =>
    obtain ⟨s', hs, t', ht, rest⟩ := ih h
    exact ⟨s', List.mem_cons_of_mem _ hs, t', List.mem_cons_of_mem _ ht, rest⟩
  | case7 s ss t ts _ _ c _ _ ih =>
    obtain ⟨s', hs, t', ht, rest⟩ := ih (map_eq_error h)
    exact ⟨s', List.mem_cons_of_mem _ hs, t', List.mem_cons_of_mem _ ht, rest⟩

theorem exists_of_add_error {f g : LinearForm} {v : Variable} (hadd : f.add g = .error v) :
    ∃ c d, f.coeff? v = some c ∧ g.coeff? v = some d ∧ fit? (c.toInt + d.toInt) = none := by
  obtain ⟨s, hs, t, ht, rfl, hv, hfit⟩ := exists_of_addTerms_error (addTerms_of_add_error hadd)
  refine ⟨s.coeff, t.coeff, (lookup_eq_some_iff f.ascending).mpr hs, ?_, hfit⟩
  exact (lookup_eq_some_iff g.ascending).mpr (hv ▸ ht)

/-! ## Coefficients as integers -/

theorem coeff_eq_of_coeff? {f : LinearForm} {v : Variable} {c : Int64} (h : f.coeff? v = some c) :
    f.coeff v = c.toInt := by
  simp [coeff, h]

/-- The assignment that is one at a single variable. -/
def unitAt (v w : Variable) : Int := if w = v then 1 else 0

theorem sum_value_unitAt {ts : List Term} (h : Ascending ts) (v : Variable) :
    (ts.map (Term.value (unitAt v))).sum = ((lookup ts v).map Int64.toInt).getD 0 := by
  induction ts with
  | nil => rfl
  | cons t ts ih =>
    obtain ⟨hlt, hts⟩ := List.pairwise_cons.mp h
    rw [List.map_cons, List.sum_cons, ih hts, lookup_cons]
    by_cases hv : t.var = v
    · have hnone : lookup ts v = none := lookup_eq_none_of_lt (hv ▸ hlt)
      simp [Term.value, unitAt, hv, hnone]
    · simp [Term.value, unitAt, hv]

theorem coeff_eq_eval (f : LinearForm) (v : Variable) : f.coeff v = f.eval (unitAt v) := by
  rw [eval_eq_sum, sum_value_unitAt f.ascending]
  rfl

theorem coeff_add {f g h : LinearForm} (hadd : f.add g = .ok h) (v : Variable) :
    h.coeff v = f.coeff v + g.coeff v := by
  simp only [coeff_eq_eval, eval_add hadd]

theorem coeff?_ne_zero {f : LinearForm} (h : f.Reduced) (v : Variable) : f.coeff? v ≠ some 0 :=
  fun hv => h _ (mem_of_lookup hv) rfl

theorem reduced_iff_coeff? {f : LinearForm} : f.Reduced ↔ ∀ v, f.coeff? v ≠ some 0 := by
  refine ⟨coeff?_ne_zero, fun h t ht hc => h t.var ?_⟩
  exact (lookup_eq_some_iff f.ascending).mpr (hc ▸ ht)

theorem reduced_add {f g h : LinearForm} (hf : f.Reduced) (hg : g.Reduced)
    (hadd : f.add g = .ok h) : h.Reduced := by
  rw [reduced_iff_coeff?] at *
  intro v
  rw [coeff?_add hadd]
  cases hc : f.coeff? v with
  | none => simpa [addCoeff] using hg v
  | some c =>
    cases hd : g.coeff? v with
    | none => simpa [addCoeff, hc] using hf v
    | some d => simp [addCoeff]

/-- A form without zero coefficients that gives zero to every variable has no terms. -/
theorem terms_eq_nil {f : LinearForm} (hf : f.Reduced) (h : ∀ v, f.coeff v = 0) :
    f.terms = [] := by
  by_contra hne
  obtain ⟨t, ht⟩ := List.exists_mem_of_ne_nil _ hne
  have hc : f.coeff? t.var = some t.coeff := (lookup_eq_some_iff f.ascending).mpr ht
  have hzero : t.coeff.toInt = 0 := by rw [← coeff_eq_of_coeff? hc, h]
  exact hf t ht (Int64.toInt_inj.mp hzero)

end LinearForm

end CuttingPlanes
