import CuttingPlanes.Proofs.Trace.Interruption

/-!
# Sealing a trace on a sink that fails

When a sink with a limit refuses part of a record, the writer can notice this later only by
the bytes that are still pending. It keeps some of them pending, so that the trace is never
sealed, unless the limit lies within a piece that was handed to the sink directly
(`Call.Loses`): then nothing is pending, and the end of the torn trace is accepted
(`sealing_law`, `sealed_torn_comment`).
-/

namespace CuttingPlanes

/-- The record that is to be written for the call, unless it is refused. -/
def Call.attempted? (call : Call) : Option Record :=
  call.op.written? call.before.isSealed call.before.next

/-- The call fails within a piece that is as large as the buffer. -/
structure Call.Loses (limit : Nat) (fault : Fault) (call : Call) : Prop where
  fails : call.answer = .error (.fault fault)
  straddles : Outlet.Straddles limit call.before.heldSize (call.before.piecesFor call.op)

namespace Writer

open Actions

variable {limit : Nat} {fault : Fault} {format : Format} {records : List Record} {w : Writer}

theorem heldSize_of_full (h : Outlet.Full limit fault w.outlet) : w.heldSize = limit := by
  obtain ⟨xs, hsink, hle⟩ := h
  rw [heldSize, hsink, ← Array.length_toList, Sink.held_offered, List.length_take,
    Nat.min_eq_left hle]

/-- Nothing that is written to a full sink straddles its limit. -/
theorem not_straddles_of_full (h : Outlet.Full limit fault w.outlet) (op : Operation) :
    ¬Outlet.Straddles limit w.heldSize (w.piecesFor op) := by
  rw [heldSize_of_full h, piecesFor]
  cases op.record? w.next with
  | none => exact Outlet.not_straddles_nil limit limit
  | some record => exact (startsSmall_piecesOf w.format record).not_straddles

/-! ## Behind a fault -/

/-- The writer is open, and bytes are pending that its sink refuses. -/
structure Torn (limit : Nat) (fault : Fault) (w : Writer) : Prop where
  isOpen : w.isSealed = false
  stuck : Outlet.Stuck limit fault w.outlet

theorem Torn.close (h : Torn limit fault w) : close w = .error (.fault fault) w :=
  onOutlet_of_error h.stuck.drain

theorem Torn.call (h : Torn limit fault w) (op : Operation) :
    (∃ e, (w.call op).answer = .error e) ∧ Torn limit fault (w.call op).after := by
  obtain ⟨hsealed, -⟩ | ⟨-, hint, -, hcall⟩ | ⟨hopen, hhints, -⟩ := call_cases w op
  · rw [h.isOpen] at hsealed
    cases hsealed
  · rw [hcall]
    exact ⟨⟨_, rfl⟩, h⟩
  · obtain ⟨o, hwrite, hsink, hpending⟩ := h.stuck.write (w.piecesFor op)
    rw [call_of_error (perform_of_write_error hopen hhints hwrite)]
    exact ⟨⟨_, rfl⟩, hopen, Outlet.full_of_sink_eq h.stuck.full hsink, hpending⟩

/-- A torn trace stays torn, and every call fails. -/
theorem Torn.calls (h : Torn limit fault w) (ops : List Operation) :
    ∀ later ∈ w.calls ops, (∃ e, later.answer = .error e) ∧ Torn limit fault later.after := by
  induction ops generalizing w with
  | nil => exact List.forall_mem_nil _
  | cons op ops ih =>
    have hcall := h.call op
    exact List.forall_mem_cons.mpr ⟨hcall, ih hcall.2⟩

/-! ## Which calls lose bytes -/

/-- A writer on a sink with a limit behind some calls: either all that was to be written has
reached the sink, or the sink is full, and nothing is pending only if a call has lost
bytes. -/
def Stands (limit : Nat) (fault : Fault) (format : Format) (front : List Call) (w : Writer) :
    Prop :=
  Intact limit fault format (front.filterMap Call.attempted?) w ∨
    Outlet.Full limit fault w.outlet ∧
      (w.outlet.pending = #[] → ∃ earlier ∈ front, earlier.Loses limit fault)

theorem attempted?_call (w : Writer) (op : Operation) :
    (w.call op).attempted? = op.written? w.isSealed w.next := by
  rw [Call.attempted?, op_call, before_call]

theorem stands_new (limit : Nat) (fault : Fault) (format : Format) :
    Stands limit fault format [] (new format (.failingAfter limit fault)) :=
  Or.inl ⟨hasRecorded_new format _, Nat.zero_le limit⟩

variable {front : List Call}

theorem stands_of_intact (h : Intact limit fault format (front.filterMap Call.attempted?) w)
    (op : Operation) : Stands limit fault format (front ++ [w.call op]) (w.call op).after := by
  have hattempted : (front ++ [w.call op]).filterMap Call.attempted? =
      front.filterMap Call.attempted? ++ (op.written? w.isSealed w.next).toList := by
    rw [List.filterMap_append, ← attempted?_call]
    cases hcall : (w.call op).attempted? <;> simp [hcall]
  rcases Nat.lt_or_ge limit (bytesOfAll format (front.filterMap Call.attempted? ++
    (op.written? w.isSealed w.next).toList)).length with hlt | hle
  · obtain ⟨record, o, hanswer, hcall, hsink, hpending⟩ := h.call_of_shortage op hlt
    rw [Operation.written?_of_answer_eq_ok hanswer] at hlt
    refine Or.inr ⟨⟨_, by rw [hcall]; exact hsink, Nat.le_of_lt hlt⟩, fun hempty => ?_⟩
    rw [hcall] at hempty ⊢
    exact ⟨_, List.mem_append_right _ (List.mem_singleton_self _), rfl, hpending.mp hempty⟩
  · refine Or.inl ?_
    rw [hattempted, (h.takesCall op hle).call_eq]
    exact h.answered op hle

theorem stands_of_full (h : Outlet.Full limit fault w.outlet)
    (hlost : w.outlet.pending = #[] → ∃ earlier ∈ front, earlier.Loses limit fault)
    (op : Operation) : Stands limit fault format (front ++ [w.call op]) (w.call op).after := by
  have hfull : Outlet.Full limit fault (w.call op).after.outlet :=
    Outlet.full_of_sink_eq h (call_of_full h op).2.1
  refine Or.inr ⟨hfull, fun hempty => ?_⟩
  have hpending : w.outlet.pending = #[] := by
    obtain ⟨-, hcall⟩ | ⟨-, hint, -, hcall⟩ | ⟨hopen, hhints, -⟩ := call_cases w op
    · rwa [hcall] at hempty
    · rwa [hcall] at hempty
    · obtain ⟨-, hpending, -⟩ | ⟨o, hwrite, -, hne⟩ := write_of_full h hhints
      · exact hpending
      · rw [call_of_error (perform_of_write_error hopen hhints hwrite)] at hempty
        exact absurd hempty hne
  obtain ⟨earlier, hmem, hloses⟩ := hlost hpending
  exact ⟨earlier, List.mem_append_left _ hmem, hloses⟩

theorem Stands.call (h : Stands limit fault format front w) (op : Operation) :
    Stands limit fault format (front ++ [w.call op]) (w.call op).after := by
  obtain hintact | ⟨hfull, hlost⟩ := h
  · exact stands_of_intact hintact op
  · exact stands_of_full hfull hlost op

/-- How the writer stood when a call of a run was made. -/
theorem stands_of_split {ops : List Operation} {back : List Call} {call : Call}
    (h : (new format (.failingAfter limit fault)).calls ops = front ++ call :: back) :
    Stands limit fault format front call.before ∧ call = call.before.call call.op ∧
      ∃ rest, back = call.after.calls rest :=
  holds_before (P := fun calls w => Stands limit fault format calls w) (fun _ _ op h => h.call op)
    (stands_new limit fault format) h

/-- What a call leaves that fails with the sink. -/
structure Faulted (limit : Nat) (fault : Fault) (call : Call) : Prop where
  isOpen : call.after.isSealed = false
  full : Outlet.Full limit fault call.after.outlet
  pending_eq_iff : call.after.outlet.pending = #[] ↔
    Outlet.Straddles limit call.before.heldSize (call.before.piecesFor call.op)

theorem faulted_of_intact (h : Intact limit fault format records w) {op : Operation} {f : Fault}
    (hfails : (w.call op).answer = .error (.fault f)) :
    f = fault ∧ Faulted limit fault (w.call op) := by
  rcases Nat.lt_or_ge limit
    (bytesOfAll format (records ++ (op.written? w.isSealed w.next).toList)).length with hlt | hle
  · obtain ⟨record, o, hanswer, hcall, hsink, hpending⟩ := h.call_of_shortage op hlt
    rw [Operation.written?_of_answer_eq_ok hanswer] at hlt
    rw [hcall] at hfails ⊢
    cases hfails
    have hopen := (Operation.record?_of_answer_eq_ok hanswer).1
    exact ⟨rfl, hopen, ⟨_, hsink, Nat.le_of_lt hlt⟩, hpending⟩
  · rw [(h.takesCall op hle).call_eq] at hfails
    exact absurd hfails Operation.answer_ne_fault

theorem faulted_of_full (h : Outlet.Full limit fault w.outlet) {op : Operation} {f : Fault}
    (hfails : (w.call op).answer = .error (.fault f)) :
    f = fault ∧ Faulted limit fault (w.call op) := by
  obtain ⟨-, hcall⟩ | ⟨-, hint, -, hcall⟩ | ⟨hopen, hhints, -⟩ := call_cases w op
  · rw [hcall] at hfails
    cases hfails
  · rw [hcall] at hfails
    cases hfails
  · obtain ⟨-, -, hwrite⟩ | ⟨o, hwrite, hsink, hne⟩ := write_of_full h hhints
    · rw [call_of_ok (perform_of_write_ok hopen hhints hwrite)] at hfails
      cases hfails
    · rw [call_of_error (perform_of_write_error hopen hhints hwrite)] at hfails ⊢
      cases hfails
      exact ⟨rfl, hopen, Outlet.full_of_sink_eq h hsink,
        iff_of_false hne (not_straddles_of_full h op)⟩

theorem Stands.faulted (h : Stands limit fault format front w) {op : Operation} {f : Fault}
    (hfails : (w.call op).answer = .error (.fault f)) :
    f = fault ∧ Faulted limit fault (w.call op) := by
  obtain hintact | ⟨hfull, -⟩ := h
  · exact faulted_of_intact hintact hfails
  · exact faulted_of_full hfull hfails

end Writer

/-- The law of sealing on a sink with a limit. If a call fails with the sink and has lost
nothing, all later calls fail, the trace is never sealed, and the writer cannot be closed
without an error. If it has lost bytes, the trace can be sealed and the writer closed as if
nothing had happened. So if the end of the trace is accepted, all that was to be written
has reached the sink, unless an earlier call has lost bytes. -/
structure SealingLaw (limit : Nat) (fault : Fault) (format : Format) (calls : List Call) :
    Prop where
  torn : ∀ front call back f, calls = front ++ call :: back → call.answer = .error (.fault f) →
    ¬call.Loses limit fault →
      (∀ later ∈ back, ∃ e, later.answer = .error e) ∧
      ∀ w ∈ call.after :: back.map Call.after,
        w.isSealed = false ∧ Writer.close w = .error (.fault fault) w
  lost : ∀ call ∈ calls, call.Loses limit fault →
    Writer.finish call.after = .ok () call.after.sealTrace ∧
      Writer.close call.after = .ok () call.after
  complete : ∀ front call back, calls = front ++ call :: back → call.op = .finish →
    call.answer = .ok none →
      call.after.outlet.sink.held.toList =
        Writer.bytesOfAll format (front.filterMap Call.attempted?) ∨
      ∃ earlier ∈ front, earlier.Loses limit fault

namespace Writer

open Actions

variable {limit : Nat} {fault : Fault} {format : Format} {ops : List Operation}
  {front back : List Call} {call : Call}

theorem torn_of_split
    (h : (new format (.failingAfter limit fault)).calls ops = front ++ call :: back) {f : Fault}
    (hfails : call.answer = .error (.fault f)) (hkeeps : ¬call.Loses limit fault) :
    Torn limit fault call.after ∧ ∃ rest, back = call.after.calls rest := by
  obtain ⟨hstands, hcall, hback⟩ := stands_of_split h
  rw [hcall] at hfails
  obtain ⟨rfl, hfaulted⟩ := hstands.faulted hfails
  rw [← hcall] at hfails hfaulted
  refine ⟨⟨hfaulted.isOpen, hfaulted.full, ?_⟩, hback⟩
  exact fun hempty => hkeeps ⟨hfails, hfaulted.pending_eq_iff.mp hempty⟩

theorem drain_of_loses
    (h : (new format (.failingAfter limit fault)).calls ops = front ++ call :: back)
    (hloses : call.Loses limit fault) :
    call.after.isSealed = false ∧ Outlet.drain call.after.outlet = .ok () call.after.outlet := by
  obtain ⟨hstands, hcall, -⟩ := stands_of_split h
  have hfails := hloses.fails
  rw [hcall] at hfails
  obtain ⟨-, hfaulted⟩ := hstands.faulted hfails
  rw [← hcall] at hfaulted
  exact ⟨hfaulted.isOpen,
    hfaulted.full.drain_of_pending_eq (hfaulted.pending_eq_iff.mpr hloses.straddles)⟩

/-- The end of the trace is accepted when nothing is pending, and changes nothing in the
sink. -/
theorem outlet_of_finish {w : Writer} (hok : (w.call .finish).answer = .ok none) :
    ∃ o, Outlet.drain w.outlet = .ok () o ∧ (w.call .finish).after.outlet = o := by
  obtain ⟨-, hcall⟩ | ⟨-, hint, -, hcall⟩ | ⟨-, -, ⟨o, hwrite, hcall⟩ | ⟨f, o, -, hcall⟩⟩ :=
    call_cases w .finish
  · rw [hcall] at hok
    cases hok
  · rw [hcall] at hok
    cases hok
  · exact ⟨o, hwrite, by rw [hcall]; rfl⟩
  · rw [hcall] at hok
    cases hok

theorem complete_of_split
    (h : (new format (.failingAfter limit fault)).calls ops = front ++ call :: back)
    (hop : call.op = .finish) (hok : call.answer = .ok none) :
    call.after.outlet.sink.held.toList = bytesOfAll format (front.filterMap Call.attempted?) ∨
      ∃ earlier ∈ front, earlier.Loses limit fault := by
  obtain ⟨hstands, hcall, -⟩ := stands_of_split h
  rw [hcall, hop] at hok
  obtain ⟨o, hdrain, hafter⟩ := outlet_of_finish hok
  obtain hintact | ⟨hfull, hlost⟩ := hstands
  · have hsettled := hintact.carries.drain_of_le hintact.length_le
    rw [hdrain] at hsettled
    cases hsettled
    refine Or.inl ?_
    rw [hcall, hop, hafter, Sink.held_offered, List.take_of_length_le hintact.length_le]
  · refine Or.inr (hlost ?_)
    by_contra hne
    rw [(Outlet.Stuck.mk hfull hne).drain] at hdrain
    cases hdrain

/-- Every run of a fresh writer on a sink with a limit obeys the law of sealing. -/
theorem sealing_law (format : Format) (limit : Nat) (fault : Fault) (ops : List Operation) :
    SealingLaw limit fault format ((new format (.failingAfter limit fault)).calls ops) where
  torn := by
    intro front call back f h hfails hkeeps
    obtain ⟨htorn, rest, rfl⟩ := torn_of_split h hfails hkeeps
    have hlater := htorn.calls rest
    refine ⟨fun later hmem => (hlater later hmem).1, List.forall_mem_cons.mpr ⟨?_, ?_⟩⟩
    · exact ⟨htorn.isOpen, htorn.close⟩
    · intro w hw
      obtain ⟨later, hmem, rfl⟩ := List.mem_map.mp hw
      have htorn' := (hlater later hmem).2
      exact ⟨htorn'.isOpen, htorn'.close⟩
  lost := by
    intro call hmem hloses
    obtain ⟨front, back, h⟩ := List.append_of_mem hmem
    obtain ⟨hopen, hdrain⟩ := drain_of_loses h hloses
    exact ⟨finish_of_drain_ok hopen hdrain, onOutlet_of_ok hdrain⟩
  complete := fun _ _ _ h hop hok => complete_of_split h hop hok

/-! ## A torn trace that is sealed -/

section Straddling

variable {text : String}

/-- If the limit lies within a large piece of a first comment, the sink is full behind it, and
nothing is pending. -/
theorem call_comment_of_straddles
    (h : Outlet.Straddles limit 0 (piecesOf format (.comment text))) (fault : Fault) :
    (new format (.failingAfter limit fault)).call (.comment text) =
      ⟨.comment text, new format (.failingAfter limit fault), .error (.fault fault),
        (new format (.failingAfter limit fault)).withOutlet
          ⟨Sink.offered limit fault (bytesOf format (.comment text)), #[]⟩⟩ := by
  have hstart : Intact limit fault format [] (new format (.failingAfter limit fault)) :=
    ⟨hasRecorded_new format _, Nat.zero_le limit⟩
  have hshort : limit < ([] ++ (piecesOf format (.comment text)).flatten).length := by
    simpa using h.lt_length
  obtain ⟨⟨sink, pending⟩, hwrite, hsink, hpending⟩ := hstart.carries.write_of_shortage hshort
  obtain rfl : pending = #[] := hpending.mpr h
  obtain rfl : sink = Sink.offered limit fault (bytesOf format (.comment text)) := hsink
  have hperform : Operation.perform (.comment text) (new format (.failingAfter limit fault)) = _ :=
    perform_of_write_error rfl (List.forall_mem_nil _) hwrite
  exact call_of_error hperform

/-- The end of the trace is accepted behind such a comment. -/
theorem finish_of_straddles (h : Outlet.Straddles limit 0 (piecesOf format (.comment text)))
    (fault : Fault) :
    let w := new format (.failingAfter limit fault)
    let ops := [Operation.comment text, .finish]
    (w.calls ops).map Call.answer = [.error (.fault fault), .ok none] ∧
    (w.runAll ops).2.isSealed = true ∧
    (w.runAll ops).2.outlet.sink.held.toList = (bytesOf format (.comment text)).take limit ∧
    close (w.runAll ops).2 = .ok () (w.runAll ops).2 := by
  intro w ops
  have hcomment : w.call (.comment text) = _ := call_comment_of_straddles h fault
  have hloses : (w.call (.comment text)).Loses limit fault := by
    rw [hcomment]
    exact ⟨rfl, h⟩
  have hsplit : w.calls ops = [] ++ w.call (.comment text) :: _ := rfl
  obtain ⟨hopen, hdrain⟩ := drain_of_loses hsplit hloses
  have hperform : Operation.perform .finish (w.call (.comment text)).after = _ :=
    perform_of_write_ok hopen (List.forall_mem_nil _) hdrain
  have hfinish := call_of_ok hperform
  have hrun : (w.runAll ops).2 = (w.call (.comment text)).after.sealTrace := by
    rw [runAll_snd_cons, runAll_snd_cons, hfinish]
    rfl
  refine ⟨?_, ?_, ?_, ?_⟩
  · simp only [ops, calls, hfinish, List.map_cons, List.map_nil, hloses.fails]
    rfl
  · rw [hrun]
    rfl
  · rw [hrun, hcomment]
    rfl
  · rw [hrun]
    exact onOutlet_of_ok hdrain

/-- A comment of one line that is as large as the buffer, and a limit within the line. -/
theorem straddles_line (hlf : '\n' ∉ text.toList)
    (hlarge : Outlet.capacity ≤ (Text.encode text.toList).length) (hle : 2 ≤ limit)
    (hlt : limit < 2 + (Text.encode text.toList).length) :
    Outlet.Straddles limit 0 (piecesOf .text (.comment text)) := by
  have hne : text.toList ≠ [] := by
    intro hnil
    rw [hnil] at hlarge
    cases hlarge
  have hpieces : piecesOf .text (.comment text) =
      [Text.encode ['*', ' '], Text.encode text.toList, Text.encode ['\n']] := by
    simp only [piecesOf, commentPieces, Trace.Text.commentPieces, List.isEmpty_eq_false_iff.mpr hne,
      Text.lines_of_lf_notMem hne hlf]
    rfl
  have hstar : (Text.encode ['*', ' ']).length = 2 := rfl
  rw [hpieces]
  refine ⟨[Text.encode ['*', ' ']], _, _, rfl, hlarge, ?_, ?_⟩
  · simpa [hstar] using hle
  · simpa [hstar] using hlt

end Straddling

/-- A comment of one line that is as large as the buffer. -/
def largeComment : String := String.ofList (List.replicate Outlet.capacity 'x')

theorem encode_largeComment :
    Text.encode largeComment.toList = List.replicate Outlet.capacity 120 := by
  have hx : String.utf8EncodeChar 'x' = [120] := by decide
  simp [largeComment, Text.encode, hx, List.flatMap_replicate]

/-- A sink that takes ten bytes of a large comment: the comment fails, and the end of the trace
is accepted nevertheless. -/
theorem sealed_torn_comment :
    let fault := Fault.medium "injected failure"
    let w := new .text (.failingAfter 10 fault)
    let ops := [Operation.comment largeComment, .finish]
    (w.calls ops).map Call.answer = [.error (.fault fault), .ok none] ∧
    (w.runAll ops).2.isSealed = true ∧
    (w.runAll ops).2.outlet.sink.held.toList = (bytesOf .text (.comment largeComment)).take 10 ∧
    10 < (bytesOf .text (.comment largeComment)).length ∧
    close (w.runAll ops).2 = .ok () (w.runAll ops).2 := by
  have hlength : (Text.encode largeComment.toList).length = 8192 := by
    rw [encode_largeComment, List.length_replicate]
    rfl
  have hlf : '\n' ∉ largeComment.toList := by simp [largeComment]
  have hstraddles : Outlet.Straddles 10 0 (piecesOf .text (.comment largeComment)) :=
    straddles_line hlf hlength.ge (by decide) (by omega)
  obtain ⟨hanswers, hsealed, hheld, hclose⟩ :=
    finish_of_straddles hstraddles (.medium "injected failure")
  have hshort := hstraddles.lt_length
  rw [Nat.zero_add, flatten_piecesOf] at hshort
  exact ⟨hanswers, hsealed, hheld, hshort, hclose⟩

end Writer

end CuttingPlanes
