import CuttingPlanes.CommandLine.Folder
import CuttingPlanes.Proofs.Pigeonhole.Adequacy

/-!
# Runs in a folder

A run in a folder puts what its command leaves into the file that it creates, and changes no
other file (`get?_run`). So what one run has put into a file is there for the next run: the
trace of a refutation is verified from its file exactly when there are more pigeons than holes
(`verified_behind_refuted`).
-/

namespace CuttingPlanes.Folder

open Actions Invocation

variable {f : Folder} {words words' : List String} {input : Source} {i : Invocation} {path : Path}
  {name : String}

/-- What a run in a folder comes to: the command is given what it needs from the folder, and
the folder has the file that was created for it. -/
theorem run_eq (f : Folder) (input : Source) (h : read? words = some i) :
    f.run words input =
      match i.command.need with
      | .nothing => (i.run (.ok (.ofBytes [])), f)
      | .standardInput => (i.run (.ok input), f)
      | .file path => (i.run (f.openFile path), f)
      | .newFile path =>
        match f.nameFor path with
        | .error fault => (i.run (.error fault), f)
        | .ok name =>
          (i.run (.ok (.ofBytes [])), f.put name (i.run (.ok (.ofBytes []))).created) := by
  have hprogram : f.run words input = (i.perform (around input)).run f := by
    rw [run, program, h]
  rw [hprogram, perform]
  cases i.command.need with
  | nothing => rfl
  | standardInput => rfl
  | file path => rfl
  | newFile path =>
    simp only [around, StateT.run_bind, StateT.run_get, pure_bind]
    cases hname : f.nameFor path with
    | error fault => rfl
    | ok name =>
      show (i.run _, (f.put name []).put name _) = _
      rw [put_put]

/-! ## Files -/

/-- The name of the file that words let the program create, if they do. -/
def created? (f : Folder) (words : List String) : Option String := do
  match (← read? words).command.need with
  | .newFile path => (f.nameFor path).toOption
  | _ => none

/-- A run puts what it leaves into the file that it creates, and changes no other file. -/
theorem get?_run (f : Folder) (words : List String) (input : Source) (other : String) :
    (f.run words input).2.get? other =
      if f.created? words = some other then some (f.run words input).1.created
      else f.get? other := by
  cases hread : read? words with
  | none =>
    have hrun : f.run words input = (.misused, f) := by
      rw [run, program, hread]
      rfl
    rw [created?, hrun, hread]
    rfl
  | some i =>
    rw [created?, run_eq f input hread, hread, Option.bind_eq_bind, Option.bind_some]
    cases i.command.need with
    | nothing => rfl
    | standardInput => rfl
    | file path => rfl
    | newFile path =>
      cases hname : f.nameFor path with
      | error fault => simp [hname, Except.toOption]
      | ok name => simp [hname, Except.toOption, get?_put, eq_comm]

theorem place_of_nameFor (h : f.nameFor path = .ok name) : place path = .ok (.file name) := by
  obtain ⟨found, hplace, hfound⟩ := exists_of_bind_eq_ok h
  rw [hplace]
  cases found with
  | folder => cases hfound
  | outside other => cases hfound
  | behind other itself => cases itself <;> cases hfound
  | file other =>
    simp only at hfound
    split at hfound
    · cases hfound
    · cases hfound
      rfl

/-- A file is opened under the path under which it was created. -/
theorem openFile_put (h : f.nameFor path = .ok name) (bytes : List UInt8) :
    (f.put name bytes).openFile path = .ok (.ofBytes bytes) := by
  rw [openFile, place_of_nameFor h, ok_bind]
  simp only [get?_put, if_pos]
  rfl

/-! ## Handing over a file -/

variable {j : Invocation} {input' : Source}

/-- What one run puts into a file is what the next run is given from the file. -/
theorem run_behind_run (hcreate : read? words = some i) (hopen : read? words' = some j)
    (hnew : i.command.need = .newFile path) (hold : j.command.need = .file path)
    (hname : f.nameFor path = .ok name) :
    let left := i.run (.ok (.ofBytes []))
    let g := f.put name left.created
    f.run words input = (left, g) ∧
      g.run words' input' = (j.run (.ok (.ofBytes left.created)), g) := by
  intro left g
  have hopened : g.openFile path = .ok (.ofBytes left.created) := openFile_put hname _
  constructor
  · rw [run_eq f input hcreate, hnew]
    simp only [hname]
    rfl
  · rw [run_eq g input' hopen, hold]
    simp only [hopened]

/-- A refutation that has been put into a file is verified from the file, exactly when there are
more pigeons than holes. -/
theorem verified_behind_refuted {p : Pigeonhole} {format : Format} {verbose verbose' : Bool}
    (hrefute : read? words = some ⟨verbose, .pigeonhole p.holes p.pigeons (some path) format⟩)
    (hverify : read? words' = some ⟨verbose', .verify path format⟩)
    (hname : f.nameFor path = .ok name) :
    ∃ refuted verified g, f.run words input = (refuted, g) ∧
      g.run words' input' = (verified, g) ∧
      refuted.status = (if p.holes < p.pigeons then 0 else 1) ∧
      verified.status = refuted.status ∧
      verified.output =
        if p.holes < p.pigeons then Text.encode "s VERIFIED\n".toList else [] := by
  obtain ⟨hfirst, hsecond⟩ := run_behind_run hrefute hverify rfl rfl hname
  refine ⟨_, _, _, hfirst, hsecond, ?_⟩
  obtain ⟨r, w, hrun, records, h⟩ := p.refute_succeeds format Sink.reliable_unlimited
  obtain ⟨written, verified, -, hmore, hfew⟩ := (h.isAdequate hrun).commands path (.ofBytes [])
  by_cases hlt : p.holes < p.pigeons
  · obtain ⟨hwritten, hverified, houtput⟩ := hmore hlt
    obtain ⟨hstatus, -, hcreated⟩ := run_of_ok (i := ⟨verbose, _⟩) hwritten
    obtain ⟨hstatus', houtput', -⟩ := run_of_ok (i := ⟨verbose', _⟩) hverified
    rw [hcreated, if_pos hlt, if_pos hlt]
    exact ⟨hstatus, hstatus'.trans hstatus.symm, houtput'.trans houtput⟩
  · obtain ⟨hwritten, hverified, houtput⟩ := hfew (Nat.le_of_not_lt hlt)
    obtain ⟨hstatus, -, hcreated⟩ := run_of_error (i := ⟨verbose, _⟩) hwritten
    obtain ⟨hstatus', houtput', -⟩ := run_of_error (i := ⟨verbose', _⟩) hverified
    rw [hcreated, if_neg hlt, if_neg hlt]
    exact ⟨hstatus, hstatus'.trans hstatus.symm, houtput'.trans houtput⟩

/-- Words of a refutation whose file is packed. -/
example : read? ["-v", "pigeonhole", "--holes", "2", "--pigeons=3", "--proof-path", "a.gz"] =
    some ⟨true, .pigeonhole 2 3 (some ⟨"a.gz", by decide⟩) .text⟩ := by decide +kernel

end CuttingPlanes.Folder
