import CuttingPlanes.Proofs.CommandLine.Execution
import CuttingPlanes.Proofs.Text.Listing
import CuttingPlanes.Proofs.Varint.Defects

/-!
# Conversion of integers

One command turns integers that are spelled in a text into their bytes, the other one turns
bytes into the line of their integers. Each is the inverse of the other up to the spelling,
and neither prints anything for an input that holds something else (`conversion_law`).
-/

namespace CuttingPlanes.Command

open Actions Text

variable {bytes : List UInt8} {text : List Char} {ws : List (List Char)} {vs : List Int64}

/-! ## Encoding -/

theorem readInteger_eq_ok_iff {w : List Char} {v : Int64} :
    readInteger w = .ok v ↔ IsInteger w v.toInt := by
  rw [← bind_fit?_eq_some_iff]
  unfold readInteger
  split
  · rename_i hread
    rw [Except.ok.injEq]
    exact ⟨fun h => h ▸ hread, fun h => Option.some.inj (hread.symm.trans h)⟩
  · rename_i hread
    exact ⟨nofun, fun h => nomatch hread.symm.trans h⟩

/-- Words are read as integers if every one of them is. -/
theorem mapM_readInteger_eq_ok_iff :
    ws.mapM readInteger = .ok vs ↔ List.Forall₂ (fun w v => IsInteger w v.toInt) ws vs := by
  induction ws generalizing vs with
  | nil =>
    rw [List.mapM_nil, List.forall₂_nil_left_iff]
    exact ⟨fun h => (Except.ok.inj h).symm, fun h => congrArg Except.ok h.symm⟩
  | cons w ws ih =>
    rw [List.mapM_cons, List.forall₂_cons_left_iff]
    constructor
    · intro h
      obtain ⟨v, hv, h⟩ := exists_of_bind_eq_ok h
      obtain ⟨vs', hvs', h⟩ := exists_of_bind_eq_ok h
      exact ⟨v, vs', readInteger_eq_ok_iff.mp hv, ih.mp hvs', (Except.ok.inj h).symm⟩
    · rintro ⟨v, vs', hv, hvs', rfl⟩
      rw [readInteger_eq_ok_iff.mpr hv, ok_bind, ih.mpr hvs', ok_bind]
      rfl

theorem executeEncode_of_spells (h : Spells text vs) :
    executeEncode (.ok (.ofBytes (Text.encode text))) .nothing =
      .ok () ⟨Varint.encodeAll vs, [], []⟩ := by
  obtain ⟨ws, hsplit, hintegers⟩ := h
  have hread : (words text).mapM readInteger = .ok vs := by
    rw [hsplit.words_eq]
    exact mapM_readInteger_eq_ok_iff.mpr hintegers
  unfold executeEncode
  rw [bind_of_ok (allBytes_ofBytes _ _), decode?_encode]
  exact bind_of_ok (orFail_of_ok hread _ _)

theorem exists_executeEncode_eq_error (h : ∀ text, bytes = Text.encode text → Misspells text) :
    ∃ e, executeEncode (.ok (.ofBytes bytes)) .nothing = .error e .nothing := by
  unfold executeEncode
  rw [bind_of_ok (allBytes_ofBytes _ _)]
  cases htext : decode? bytes with
  | none => exact ⟨.fault .notText, rfl⟩
  | some text =>
    have hmisspells := h text (eq_encode_of_decode? htext)
    cases hread : (words text).mapM readInteger with
    | error e => exact ⟨e, bind_of_error (orFail_of_error hread _ _)⟩
    | ok vs =>
      have hspells : Spells text vs :=
        ⟨words text, splitsInto_words text, mapM_readInteger_eq_ok_iff.mp hread⟩
      exact absurd hmisspells hspells.not_misspells

/-! ## Decoding -/

theorem toList_integerLine (vs : List Int64) :
    (integerLine vs).toList = [' '].intercalate (vs.map fun v => plain v.toInt) := by
  rw [integerLine, String.toList_intercalate, List.map_map]
  congr 2
  funext v
  exact String.toList_ofList

theorem executeDecode_of_isLine (h : IsLine text vs) :
    executeDecode (.ok (.ofBytes (Varint.encodeAll vs))) .nothing =
      .ok () ⟨Text.encode text, [], []⟩ := by
  unfold executeDecode
  rw [bind_of_ok (allBytes_ofBytes _ _),
    bind_of_ok (orFail_of_ok (Varint.decode_eq_ok_iff.mpr rfl) _ _), isLine_iff.mp h,
    ← toList_integerLine]
  rfl

theorem exists_executeDecode_eq_error {rest : List UInt8}
    (h : Varint.FailsBehind bytes vs rest) :
    ∃ e, executeDecode (.ok (.ofBytes bytes)) .nothing = .error e .nothing := by
  obtain ⟨defect, -, hdecode⟩ := Varint.decode_of_failsBehind h
  unfold executeDecode
  rw [bind_of_ok (allBytes_ofBytes _ _)]
  exact ⟨_, bind_of_error (orFail_of_error hdecode _ _)⟩

end CuttingPlanes.Command

namespace CuttingPlanes.Invocation

open Command Text

/-- The invocation succeeds and prints the given bytes. -/
structure Prints (i : Invocation) (bytes printed : List UInt8) : Prop where
  status : (i.run (.ok (.ofBytes bytes))).status = 0
  output : (i.run (.ok (.ofBytes bytes))).output = printed

/-- The invocation fails and prints nothing. -/
structure Refuses (i : Invocation) (bytes : List UInt8) : Prop where
  status : (i.run (.ok (.ofBytes bytes))).status = 1
  output : (i.run (.ok (.ofBytes bytes))).output = []

variable {i : Invocation} {bytes printed : List UInt8} {verbose : Bool} {text : List Char}
  {vs : List Int64}

theorem prints_of_ok {events : List Event} {created : List UInt8}
    (h : i.command.execute (.ok (.ofBytes bytes)) .nothing = .ok () ⟨printed, events, created⟩) :
    Prints i bytes printed := by
  obtain ⟨hstatus, hprinted, -⟩ := run_of_ok h
  exact ⟨hstatus, hprinted⟩

theorem refuses_of_error {e : Failure}
    (h : i.command.execute (.ok (.ofBytes bytes)) .nothing = .error e .nothing) :
    Refuses i bytes := by
  obtain ⟨hstatus, hprinted, -⟩ := run_of_error h
  exact ⟨hstatus, hprinted⟩

theorem Refuses.not_prints (h : Refuses i bytes) : ¬Prints i bytes printed := by
  intro hprints
  have hstatus := h.status.symm.trans hprints.status
  cases hstatus

theorem prints_encode (h : Spells text vs) :
    Prints ⟨verbose, .encode⟩ (Text.encode text) (Varint.encodeAll vs) :=
  prints_of_ok (executeEncode_of_spells h)

theorem prints_decode (h : IsLine text vs) :
    Prints ⟨verbose, .decode⟩ (Varint.encodeAll vs) (Text.encode text) :=
  prints_of_ok (executeDecode_of_isLine h)

theorem refuses_encode (h : ∀ text, bytes = Text.encode text → Misspells text) :
    Refuses ⟨verbose, .encode⟩ bytes := by
  obtain ⟨e, hexecute⟩ := exists_executeEncode_eq_error h
  exact refuses_of_error hexecute

theorem refuses_decode {rest : List UInt8} (h : Varint.FailsBehind bytes vs rest) :
    Refuses ⟨verbose, .decode⟩ bytes := by
  obtain ⟨e, hexecute⟩ := exists_executeDecode_eq_error h
  exact refuses_of_error hexecute

/-- What is decoded are the bytes of integers, and their line is printed. -/
theorem Prints.exists_line (h : Prints ⟨verbose, .decode⟩ bytes printed) :
    ∃ vs text, bytes = Varint.encodeAll vs ∧ IsLine text vs ∧ printed = Text.encode text := by
  rcases Varint.exists_failsBehind_or bytes with ⟨vs, rfl⟩ | ⟨vs, rest, hfails⟩
  · obtain ⟨text, hline⟩ := exists_isLine vs
    exact ⟨vs, text, rfl, hline, h.output.symm.trans (prints_decode hline).output⟩
  · exact absurd h (refuses_decode hfails).not_prints

/-- A text that spells integers is turned into their bytes, and these into the line of the
integers; the line of any bytes is turned back into the same bytes. A text with a word that is
no integer of 64 bits is refused, and bytes of integers with something else behind them are. -/
theorem conversion_law (verbose : Bool) :
    (∀ text vs, Spells text vs → ∃ line, IsLine line vs ∧
      Prints ⟨verbose, .encode⟩ (Text.encode text) (Varint.encodeAll vs) ∧
      Prints ⟨verbose, .decode⟩ (Varint.encodeAll vs) (Text.encode line)) ∧
    (∀ bytes printed, Prints ⟨verbose, .decode⟩ bytes printed →
      Prints ⟨verbose, .encode⟩ printed bytes) ∧
    (∀ bytes, Refuses ⟨verbose, .encode⟩ bytes ↔
      ∀ text, bytes = Text.encode text → Misspells text) ∧
    (∀ bytes, Refuses ⟨verbose, .decode⟩ bytes ↔
      ∃ vs rest, Varint.FailsBehind bytes vs rest) := by
  refine ⟨fun text vs h => ?_, fun bytes printed h => ?_, fun bytes => ⟨?_, refuses_encode⟩,
    fun bytes => ⟨?_, ?_⟩⟩
  · obtain ⟨line, hline⟩ := exists_isLine vs
    exact ⟨line, hline, prints_encode h, prints_decode hline⟩
  · obtain ⟨vs, line, rfl, hline, rfl⟩ := h.exists_line
    exact prints_encode hline.spells
  · rintro hrefuses text rfl
    rcases exists_spells_or text with ⟨vs, hspells⟩ | hmisspells
    · exact absurd (prints_encode hspells) hrefuses.not_prints
    · exact hmisspells
  · intro hrefuses
    rcases Varint.exists_failsBehind_or bytes with ⟨vs, rfl⟩ | hfails
    · obtain ⟨line, hline⟩ := exists_isLine vs
      exact absurd (prints_decode hline) hrefuses.not_prints
    · exact hfails
  · rintro ⟨vs, rest, hfails⟩
    exact refuses_decode hfails

/-- A plus sign, zeros in front and a wide space are as good as any other spelling. -/
example : ((⟨false, .encode⟩ : Invocation).run
    (.ok (.ofBytes (Text.encode "+007\u3000-0\n".toList)))).output = [14, 0] := by
  decide +kernel

end CuttingPlanes.Invocation
