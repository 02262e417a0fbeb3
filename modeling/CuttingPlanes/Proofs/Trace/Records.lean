import CuttingPlanes.Proofs.Trace.Deduction
import CuttingPlanes.Trace.Verification

/-!
# The records of a trace

What a reader delivers up to the end of the trace or the first error. Verifying a
trace is checking the steps among these records in order, and an error of the
reader counts only when all steps before it are accepted (`verify_eq_checkAll`).
-/

namespace CuttingPlanes

def Record.step? : Record → Option Step
  | .comment _ => none
  | .step s => some s

def stepsOf (records : List Record) : List Step := records.filterMap Record.step?

@[simp] theorem stepsOf_nil : stepsOf [] = [] := rfl

@[simp] theorem stepsOf_comment (text : String) (records : List Record) :
    stepsOf (.comment text :: records) = stepsOf records := rfl

@[simp] theorem stepsOf_step (s : Step) (records : List Record) :
    stepsOf (.step s :: records) = s :: stepsOf records := rfl

@[simp] theorem stepsOf_append (records more : List Record) :
    stepsOf (records ++ more) = stepsOf records ++ stepsOf more := List.filterMap_append

theorem mem_stepsOf {s : Step} {records : List Record} : s ∈ stepsOf records ↔ .step s ∈ records := by
  induction records with
  | nil => simp
  | cons record records ih =>
    cases record <;> simp [ih]

def inputsOf (records : List Record) : List Constraint :=
  ((stepsOf records).filter (·.kind = .input)).map Step.constraint

@[simp] theorem inputsOf_nil : inputsOf [] = [] := rfl

@[simp] theorem inputsOf_comment (text : String) (records : List Record) :
    inputsOf (.comment text :: records) = inputsOf records := rfl

@[simp] theorem inputsOf_step (s : Step) (records : List Record) :
    inputsOf (.step s :: records) =
      if s.kind = .input then s.constraint :: inputsOf records else inputsOf records := by
  by_cases h : s.kind = .input <;> simp [inputsOf, h]

@[simp] theorem inputsOf_append (records more : List Record) :
    inputsOf (records ++ more) = inputsOf records ++ inputsOf more := by
  simp [inputsOf]

namespace Reader

variable {r r' : Reader}

/-- The records up to the end of the trace or the first error, and that error. -/
def records (r : Reader) : List Record × Option ReadError :=
  match _h : nextRecord r with
  | .error e _ => ([], some e)
  | .ok none _ => ([], none)
  | .ok (some record) r => (record :: (records r).1, (records r).2)
termination_by r.source.rest.length
decreasing_by all_goals exact length_rest_of_nextRecord _h

theorem records_of_error {e : ReadError} (h : nextRecord r = .error e r') :
    r.records = ([], some e) := by
  rw [records]
  split <;> simp_all

theorem records_of_end (h : nextRecord r = .ok none r') : r.records = ([], none) := by
  rw [records]
  split <;> simp_all

theorem records_of_record {record : Record} (h : nextRecord r = .ok (some record) r') :
    r.records = (record :: r'.records.1, r'.records.2) := by
  rw [records]
  split <;> simp_all

theorem nextStep_of_error {e : ReadError} (h : nextRecord r = .error e r') :
    nextStep r = .error e r' := by
  rw [nextStep]
  split <;> simp_all

theorem nextStep_of_end (h : nextRecord r = .ok none r') : nextStep r = .ok none r' := by
  rw [nextStep]
  split <;> simp_all

theorem nextStep_of_comment {text : String} (h : nextRecord r = .ok (some (.comment text)) r') :
    nextStep r = nextStep r' := by
  rw [nextStep]
  split <;> simp_all

theorem nextStep_of_step {s : Step} (h : nextRecord r = .ok (some (.step s)) r') :
    nextStep r = .ok (some s) r' := by
  rw [nextStep]
  split <;> simp_all

end Reader

namespace Checker

variable {c : Checker} {r r' : Reader}

theorem verify_of_error {e : ReadError} (h : r.nextStep = .error e r') :
    c.verify r = .error (.read e) c := by
  rw [verify]
  split <;> simp_all

theorem verify_of_end (h : r.nextStep = .ok none r') : c.verify r = .ok () c := by
  rw [verify]
  split <;> simp_all

theorem verify_of_step {s : Step} (h : r.nextStep = .ok (some s) r') :
    c.verify r = match c.check s with
      | .ok c => c.verify r'
      | .error e => .error (.step e) c := by
  rw [verify]
  split <;> rename_i heq <;> rw [h] at heq <;> cases heq
  cases c.check s <;> rfl

theorem verify_congr {q : Reader} (h : r.nextStep = q.nextStep) : c.verify r = c.verify q := by
  cases hq : q.nextStep with
  | error e q' => rw [verify_of_error hq, verify_of_error (h.trans hq)]
  | ok s? q' =>
    cases s? with
    | none => rw [verify_of_end hq, verify_of_end (h.trans hq)]
    | some s => rw [verify_of_step hq, verify_of_step (h.trans hq)]

/-- Verifying a trace is checking its steps, and then heeding the reader's error. -/
theorem verify_eq_checkAll (c : Checker) (r : Reader) :
    c.verify r = match c.checkAll (stepsOf r.records.1) with
      | .error e c => .error (.step e) c
      | .ok () c =>
        match r.records.2 with
        | none => .ok () c
        | some e => .error (.read e) c := by
  fun_induction Reader.records r generalizing c with
  | case1 r e r' h => rw [verify_of_error (Reader.nextStep_of_error h)]; rfl
  | case2 r r' h => rw [verify_of_end (Reader.nextStep_of_end h)]; rfl
  | case3 r record r' h ih =>
    cases record with
    | comment text =>
      rw [verify_congr (Reader.nextStep_of_comment h), ih]
      rfl
    | step s =>
      rw [verify_of_step (Reader.nextStep_of_step h), stepsOf_step, checkAll]
      cases c.check s with
      | ok c => exact ih c
      | error e => rfl

/-- A trace is verified when it is read to its end and its steps are accepted. -/
theorem verify_eq_ok_iff {c' : Checker} :
    c.verify r = .ok () c' ↔
      r.records.2 = none ∧ c.checkAll (stepsOf r.records.1) = .ok () c' := by
  rw [verify_eq_checkAll]
  cases c.checkAll (stepsOf r.records.1) with
  | error e d => simp
  | ok u d => cases r.records.2 <;> simp

end Checker

end CuttingPlanes
