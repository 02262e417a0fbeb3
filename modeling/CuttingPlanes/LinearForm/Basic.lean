import CuttingPlanes.Variable

/-!
# Linear forms

A linear form is a sum of terms, each a 64-bit coefficient times a variable. The
terms stand in ascending order of their variables and no variable stands twice,
so a form has one representation only. Zero coefficients are kept.
-/

namespace CuttingPlanes

structure Term where
  coeff : Int64
  var : Variable
deriving DecidableEq, Repr

/-- Every variable is smaller than all that follow. -/
def Ascending (ts : List Term) : Prop := ts.Pairwise (fun s t => s.var < t.var)

instance (ts : List Term) : Decidable (Ascending ts) :=
  inferInstanceAs (Decidable (ts.Pairwise _))

structure LinearForm where
  terms : List Term
  ascending : Ascending terms
deriving DecidableEq

namespace LinearForm

def zero : LinearForm := ⟨[], .nil⟩

def coeffs (f : LinearForm) : List Int64 := f.terms.map Term.coeff

def vars (f : LinearForm) : List Variable := f.terms.map Term.var

/-- The coefficient of a variable, if it stands in the form. -/
def coeff? (f : LinearForm) (v : Variable) : Option Int64 :=
  (f.terms.find? (·.var = v)).map Term.coeff

/-- The value of the form under an assignment of integers. -/
def eval (a : Variable → Int) (f : LinearForm) : Int :=
  f.terms.foldr (fun t value => t.coeff.toInt * a t.var + value) 0

@[ext] theorem ext {f g : LinearForm} (h : f.terms = g.terms) : f = g := by
  cases f; cases g; simp_all

/-! ## Sorting -/

/-- The terms by ascending variable; terms of one variable keep their order. -/
def sorted (ts : List Term) : List Term :=
  ts.mergeSort fun s t => s.var.number ≤ t.var.number

/-- The first variable that also stands in the next term. -/
def firstRepeated? : List Term → Option Variable
  | s :: t :: rest => if s.var = t.var then some s.var else firstRepeated? (t :: rest)
  | _ => none

theorem sorted_perm (ts : List Term) : (sorted ts).Perm ts := List.mergeSort_perm ts _

theorem sorted_pairwise (ts : List Term) :
    (sorted ts).Pairwise (fun s t => s.var.number ≤ t.var.number) := by
  have h : (sorted ts).Pairwise (fun s t => decide (s.var.number ≤ t.var.number) = true) :=
    List.pairwise_mergeSort (by simp only [decide_eq_true_eq]; omega)
      (by simp only [Bool.or_eq_true, decide_eq_true_eq]; omega) ts
  exact h.imp of_decide_eq_true

theorem ascending_of_firstRepeated? {ts : List Term}
    (hs : ts.Pairwise (fun s t => s.var.number ≤ t.var.number)) (hn : firstRepeated? ts = none) :
    Ascending ts := by
  fun_induction firstRepeated? ts with
  | case1 => simp at hn
  | case2 s t rest hne ih =>
    rw [List.pairwise_cons] at hs
    have ht := ih hs.2 hn
    refine List.pairwise_cons.mpr ⟨fun u hu => ?_, ht⟩
    have hst : s.var < t.var := by
      have := hs.1 t (by simp)
      refine Nat.lt_of_le_of_ne this fun h => hne (Variable.ext h)
    rcases List.mem_cons.mp hu with rfl | hu
    · exact hst
    · exact Variable.lt_trans hst ((List.pairwise_cons.mp ht).1 u hu)
  | case3 ts hts =>
    match ts, hts with
    | [], _ => exact .nil
    | [_], _ => exact List.pairwise_singleton _ _
    | s :: t :: rest, hts => exact absurd rfl (hts s t rest)

/-- The form with given terms in any order, or the least variable that stands in
two of them. -/
def ofTerms (ts : List Term) : Except Variable LinearForm :=
  match h : firstRepeated? (sorted ts) with
  | some v => .error v
  | none => .ok ⟨sorted ts, ascending_of_firstRepeated? (sorted_pairwise ts) h⟩

end LinearForm

end CuttingPlanes
