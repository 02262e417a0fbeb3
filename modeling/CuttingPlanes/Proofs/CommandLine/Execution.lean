import CuttingPlanes.CommandLine.Execution
import CuttingPlanes.Proofs.Actions

/-!
# What commands print

The command that verifies a trace prints its one line exactly when the checker has accepted
all steps and the last one is a contradiction; otherwise it prints nothing and fails.
-/

namespace CuttingPlanes.Command

open Actions Report

variable {format : Format} {path : Path} {file : Source} {c : Checker}

theorem allBytes_ofBytes (bytes : List UInt8) (report : Report) :
    allBytes (.ok (.ofBytes bytes)) report = .ok bytes report := rfl

theorem orFail_of_ok {ε α : Type} {x : Except ε α} {a : α} (h : x = .ok a) (cause : ε → Failure)
    (report : Report) : orFail cause x report = .ok a report := by
  rw [h]
  rfl

theorem orFail_of_error {ε α : Type} {x : Except ε α} {e : ε} (h : x = .error e)
    (cause : ε → Failure) (report : Report) :
    orFail cause x report = .error (cause e) report := by
  rw [h]
  rfl

theorem tell_succeeds (events : List Event) (report : Report) :
    Succeeds (tell events) report fun _ t =>
      t.created = report.created ∧ t.output = report.output :=
  ⟨(), _, rfl, rfl, rfl⟩

theorem printLine_succeeds (text : String) (report : Report) :
    Succeeds (printLine text) report fun _ t =>
      t.created = report.created ∧
        t.output = report.output ++ Text.encode (text.toList ++ ['\n']) :=
  ⟨(), _, rfl, rfl, rfl⟩

theorem executeVerify_of_ok
    (h : Checker.new.verify (.new format (traceOfFile path file)) = .ok () c) :
    ∃ report : Report,
      report.output = (if c.concludesContradiction then Text.encode "s VERIFIED\n".toList else []) ∧
      executeVerify path format (.ok file) .nothing =
        if c.concludesContradiction then .ok () report else .error .noContradiction report := by
  obtain ⟨_, t₁, h₁, -, houtput₁⟩ := tell_succeeds
    (c.journal.toList ++ [.checked c.inputs c.derived]) .nothing
  unfold executeVerify
  rw [bind_of_ok (orFail_of_ok rfl _ _)]
  simp only [h]
  rw [bind_of_ok h₁]
  cases hcontra : c.concludesContradiction with
  | true =>
    obtain ⟨_, t₂, h₂, -, houtput₂⟩ := printLine_succeeds "s VERIFIED" t₁
    rw [houtput₁] at houtput₂
    exact ⟨t₂, houtput₂, h₂⟩
  | false => exact ⟨t₁, houtput₁, rfl⟩

theorem executeVerify_of_error {e : VerificationError}
    (h : Checker.new.verify (.new format (traceOfFile path file)) = .error e c) :
    ∃ report : Report, report.output = [] ∧
      executeVerify path format (.ok file) .nothing = .error (.verification e) report := by
  obtain ⟨_, t₁, h₁, -, houtput₁⟩ := tell_succeeds c.journal.toList .nothing
  refine ⟨t₁, houtput₁, ?_⟩
  unfold executeVerify
  rw [bind_of_ok (orFail_of_ok rfl _ _)]
  simp only [h]
  rw [bind_of_ok h₁]
  rfl

end CuttingPlanes.Command

namespace CuttingPlanes.Invocation

open Command

variable {i : Invocation} {given : Except Fault Source} {r : Report} {e : Failure}

/-- What a command prints and leaves is handed on, whether it succeeds or not. -/
theorem run_of_ok (h : i.command.execute given .nothing = .ok () r) :
    (i.run given).status = 0 ∧ (i.run given).output = r.output ∧
      (i.run given).created = r.created := by
  simp only [run, h, and_self]

theorem run_of_error (h : i.command.execute given .nothing = .error e r) :
    (i.run given).status = 1 ∧ (i.run given).output = r.output ∧
      (i.run given).created = r.created := by
  simp only [run, h, and_self]

variable {format : Format} {path : Path} {file : Source} {c : Checker}

/-- The invocation succeeds with its one line if the last accepted step is a contradiction. -/
theorem run_verify_of_ok (verbose : Bool)
    (h : Checker.new.verify (.new format (traceOfFile path file)) = .ok () c)
    (hcontra : c.concludesContradiction = true) :
    (run ⟨verbose, .verify path format⟩ (.ok file)).status = 0 ∧
      (run ⟨verbose, .verify path format⟩ (.ok file)).output =
        Text.encode "s VERIFIED\n".toList := by
  obtain ⟨report, houtput, hrun⟩ := executeVerify_of_ok h
  rw [hcontra, if_pos rfl] at houtput hrun
  obtain ⟨hstatus, hprinted, -⟩ := run_of_ok (i := ⟨verbose, .verify path format⟩) hrun
  exact ⟨hstatus, hprinted.trans houtput⟩

/-- Otherwise it fails and prints nothing. -/
theorem run_verify_of_not (verbose : Bool)
    (h : ∀ c, Checker.new.verify (.new format (traceOfFile path file)) = .ok () c →
      c.concludesContradiction = false) :
    (run ⟨verbose, .verify path format⟩ (.ok file)).status = 1 ∧
      (run ⟨verbose, .verify path format⟩ (.ok file)).output = [] := by
  have hfails : ∃ e report, (Command.verify path format).execute (.ok file) .nothing =
      .error e report ∧ report.output = [] := by
    cases hverify : Checker.new.verify (.new format (traceOfFile path file)) with
    | ok u c =>
      obtain ⟨report, houtput, hrun⟩ := executeVerify_of_ok hverify
      rw [h c hverify] at houtput hrun
      exact ⟨_, report, hrun, houtput⟩
    | error e c =>
      obtain ⟨report, houtput, hrun⟩ := executeVerify_of_error hverify
      exact ⟨_, report, hrun, houtput⟩
  obtain ⟨e, report, hrun, houtput⟩ := hfails
  obtain ⟨hstatus, hprinted, -⟩ := run_of_error (i := ⟨verbose, .verify path format⟩) hrun
  exact ⟨hstatus, hprinted.trans houtput⟩

end CuttingPlanes.Invocation
