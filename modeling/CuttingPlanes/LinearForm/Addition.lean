import CuttingPlanes.LinearForm.Basic
import CuttingPlanes.Number

/-!
# Adding linear forms

Two forms are added along their ascending variables. A variable of one form only
keeps its coefficient. A variable of both gets the sum, or leaves the form when
the sum is zero; the addition fails at the least variable whose sum does not fit.
-/

namespace CuttingPlanes.LinearForm

/-- The sum of two ascending term lists, or the first variable whose coefficient
does not fit. -/
def addTerms : List Term → List Term → Except Variable (List Term)
  | [], ts => .ok ts
  | ss, [] => .ok ss
  | s :: ss, t :: ts =>
    if s.var < t.var then (s :: ·) <$> addTerms ss (t :: ts)
    else if t.var < s.var then (t :: ·) <$> addTerms (s :: ss) ts
    else
      match fit? (s.coeff.toInt + t.coeff.toInt) with
      | none => .error s.var
      | some c => if c = 0 then addTerms ss ts else (⟨c, s.var⟩ :: ·) <$> addTerms ss ts
termination_by ss ts => ss.length + ts.length

theorem map_eq_ok {ε α β : Type} {f : α → β} {x : Except ε α} {b : β} (h : f <$> x = .ok b) :
    ∃ a, x = .ok a ∧ f a = b := by
  cases x with
  | error e => cases h
  | ok a => cases h; exact ⟨a, rfl, rfl⟩

/-- Every variable of a sum stands in one of the summands. -/
theorem var_of_mem_addTerms {ss ts us : List Term} (h : addTerms ss ts = .ok us) {u : Term}
    (hu : u ∈ us) : (∃ s ∈ ss, s.var = u.var) ∨ ∃ t ∈ ts, t.var = u.var := by
  fun_induction addTerms ss ts generalizing us with
  | case1 ts => cases h; exact Or.inr ⟨u, hu, rfl⟩
  | case2 ss => cases h; exact Or.inl ⟨u, hu, rfl⟩
  | case3 s ss t ts _ ih =>
    obtain ⟨us, hus, rfl⟩ := map_eq_ok h
    rcases List.mem_cons.mp hu with rfl | hu
    · exact Or.inl ⟨u, by simp, rfl⟩
    · rcases ih hus hu with ⟨s', hs, he⟩ | ht
      · exact Or.inl ⟨s', by simp [hs], he⟩
      · exact Or.inr ht
  | case4 s ss t ts _ _ ih =>
    obtain ⟨us, hus, rfl⟩ := map_eq_ok h
    rcases List.mem_cons.mp hu with rfl | hu
    · exact Or.inr ⟨u, by simp, rfl⟩
    · rcases ih hus hu with hs | ⟨t', ht, he⟩
      · exact Or.inl hs
      · exact Or.inr ⟨t', by simp [ht], he⟩
  | case5 => cases h
  | case6 s ss t ts _ _ _ ih =>
    rcases ih h hu with ⟨s', hs, he⟩ | ⟨t', ht, he⟩
    · exact Or.inl ⟨s', by simp [hs], he⟩
    · exact Or.inr ⟨t', by simp [ht], he⟩
  | case7 s ss t ts _ _ c _ _ ih =>
    obtain ⟨us, hus, rfl⟩ := map_eq_ok h
    rcases List.mem_cons.mp hu with rfl | hu
    · exact Or.inl ⟨s, by simp, rfl⟩
    · rcases ih hus hu with ⟨s', hs, he⟩ | ⟨t', ht, he⟩
      · exact Or.inl ⟨s', by simp [hs], he⟩
      · exact Or.inr ⟨t', by simp [ht], he⟩

theorem ascending_cons_addTerms {ss ts us : List Term} {v : Term} (h : addTerms ss ts = .ok us)
    (hs : ∀ s ∈ ss, v.var < s.var) (ht : ∀ t ∈ ts, v.var < t.var) (hu : Ascending us) :
    Ascending (v :: us) := by
  refine List.pairwise_cons.mpr ⟨fun u hmem => ?_, hu⟩
  rcases var_of_mem_addTerms h hmem with ⟨s, hs', he⟩ | ⟨t, ht', he⟩
  · exact he ▸ hs s hs'
  · exact he ▸ ht t ht'

theorem lt_of_ascending_cons {s t : Term} {ts : List Term} (h : Ascending (t :: ts))
    (hst : s.var < t.var) : ∀ u ∈ t :: ts, s.var < u.var := by
  intro u hu
  rcases List.mem_cons.mp hu with rfl | hu
  · exact hst
  · exact Variable.lt_trans hst ((List.pairwise_cons.mp h).1 u hu)

theorem addTerms_ascending {ss ts us : List Term} (hs : Ascending ss) (ht : Ascending ts)
    (h : addTerms ss ts = .ok us) : Ascending us := by
  fun_induction addTerms ss ts generalizing us with
  | case1 => cases h; exact ht
  | case2 => cases h; exact hs
  | case3 s ss t ts hlt ih =>
    obtain ⟨us, hus, rfl⟩ := map_eq_ok h
    have hss := List.pairwise_cons.mp hs
    exact ascending_cons_addTerms hus hss.1 (lt_of_ascending_cons ht hlt) (ih hss.2 ht hus)
  | case4 s ss t ts _ hlt ih =>
    obtain ⟨us, hus, rfl⟩ := map_eq_ok h
    have hts := List.pairwise_cons.mp ht
    exact ascending_cons_addTerms hus (lt_of_ascending_cons hs hlt) hts.1 (ih hs hts.2 hus)
  | case5 => cases h
  | case6 s ss t ts _ _ _ ih =>
    exact ih (List.pairwise_cons.mp hs).2 (List.pairwise_cons.mp ht).2 h
  | case7 s ss t ts hst hts c _ _ ih =>
    obtain ⟨us, hus, rfl⟩ := map_eq_ok h
    have hss := List.pairwise_cons.mp hs
    have htt := List.pairwise_cons.mp ht
    have he := Variable.eq_of_not_lt hst hts
    refine ascending_cons_addTerms hus hss.1 (fun u hu => ?_) (ih hss.2 htt.2 hus)
    exact he ▸ htt.1 u hu

/-- The sum of two forms, or the least variable whose coefficient does not fit. -/
def add (f g : LinearForm) : Except Variable LinearForm :=
  match h : addTerms f.terms g.terms with
  | .error v => .error v
  | .ok ts => .ok ⟨ts, addTerms_ascending f.ascending g.ascending h⟩

end CuttingPlanes.LinearForm
