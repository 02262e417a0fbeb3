import CuttingPlanes.Proofs.Text.Numerals
import CuttingPlanes.Proofs.Trace.Text.Line

/-!
# The grammar of a line

Which lines are comments, blank or steps is said without the reader: a comment by its first
character that is not blank, a step by its words (`SpellsStep`). The reader accepts the lines
of the grammar with what they spell, and it rejects every other line under its number
(`line_grammar`).
-/

namespace CuttingPlanes.Trace.Text

open CuttingPlanes.Text Actions

/-! ## The grammar -/

/-- The words are pairs of a coefficient of 64 bits and an `x` with the number of a variable
behind it, one pair for each term. -/
inductive SpellsTerms : List Word → List Term → Prop
  | nil : SpellsTerms [] []
  | cons {w digits : Word} {ws : List Word} {t : Term} {ts : List Term}
    (hcoeff : IsInteger w t.coeff.toInt) (hvar : IsNatural digits t.var.number)
    (hrest : SpellsTerms ws ts) : SpellsTerms (w :: ('x' :: digits) :: ws) (t :: ts)

/-- The word is the number of the step, which is below 2 ^ 64. -/
structure SpellsHint (w : Word) (hint : StepId) : Prop where
  number : IsNatural w hint.number
  number_lt : hint.number < 0x10000000000000000

/-- The words of a step: its kind, its terms in any order, its relation, its bound, a
semicolon and its hints. No variable is repeated, and an input has no hints. -/
inductive SpellsStep : List Word → StepKind → Constraint → List StepId → Prop
  | intro {kind : StepKind} {c : Constraint} {hints : List StepId} {terms : List Term}
    {termWords hintWords : List Word} {boundWord : Word}
    (hterms : SpellsTerms termWords terms) (hdistinct : (terms.map Term.var).Nodup)
    (hsame : c.form.terms.Perm terms) (hsorted : c.form.vars.Pairwise (· < ·))
    (hbound : IsInteger boundWord c.bound.toInt)
    (hhints : List.Forall₂ SpellsHint hintWords hints) (hinput : kind = .input → hints = []) :
    SpellsStep ([kind.char] ::
      (termWords ++ c.relation.symbol.toList :: boundWord :: [';'] :: hintWords)) kind c hints

/-- The line is a step with the given parts. -/
def IsStep (line : List Char) (kind : StepKind) (c : Constraint) (hints : List StepId) : Prop :=
  ∃ ws, SplitsInto line ws ∧ SpellsStep ws kind c hints

/-- The first character of the line that is not blank is a star. -/
def StartsWithStar (line : List Char) : Prop := line.find? (!isBlank ·) = some '*'

/-- A comment is what stands behind the first star, carriage returns at the end of the line
apart. -/
def IsComment (line : List Char) (text : String) : Prop :=
  ∃ blanks body returns, line = blanks ++ '*' :: (body ++ List.replicate returns '\r') ∧
    (∀ b ∈ blanks, isBlank b = true) ∧ body.getLast? ≠ some '\r' ∧ text = commentText body

def IsBlankLine (line : List Char) : Prop := ∀ c ∈ line, isBlank c = true

/-- The line is neither a comment nor blank nor a step. -/
structure IsMalformed (line : List Char) : Prop where
  not_comment : ¬StartsWithStar line
  not_blank : ¬IsBlankLine line
  not_step : ∀ kind c hints, ¬IsStep line kind c hints

/-! ## Single words -/

section Words

variable {w : Word} {ws rest : List Word}

theorem relation?_eq_some_iff {r : Relation} : relation? w = some r ↔ w = r.symbol.toList := by
  constructor
  · intro h
    unfold relation? at h
    have hbeq := List.find?_some h
    exact (eq_of_beq hbeq).symm
  · rintro rfl
    exact relation?_symbol r

/-- No relation is a number. -/
theorem ne_symbol_of_isInteger {z : Int} (h : IsInteger w z) (r : Relation) :
    w ≠ r.symbol.toList := by
  rintro rfl
  cases r with
  | atLeast =>
    have hhead : IsInteger ['>', '='] z := h
    exact absurd hhead.head (by decide)
  | equal =>
    have hhead : IsInteger ['='] z := h
    exact absurd hhead.head (by decide)

theorem relation?_of_isInteger {z : Int} (h : IsInteger w z) : relation? w = none := by
  cases hr : relation? w with
  | none => rfl
  | some r => exact absurd (relation?_eq_some_iff.mp hr) (ne_symbol_of_isInteger h r)

theorem number?_eq_some_iff {k : Int64} : number? w = some k ↔ IsInteger w k.toInt :=
  bind_fit?_eq_some_iff

theorem var?_eq_some_iff {v : Variable} :
    var? w = some v ↔ ∃ digits, w = 'x' :: digits ∧ IsNatural digits v.number := by
  unfold var?
  split
  · rename_i digits
    rw [Option.bind_eq_some_iff]
    simp only [natural?_eq_some_iff, Variable.ofNat?_eq_some_iff]
    constructor
    · rintro ⟨n, hn, rfl⟩
      exact ⟨digits, rfl, hn⟩
    · rintro ⟨digits', hdigits, hn⟩
      cases hdigits
      exact ⟨_, hn, rfl⟩
  · rename_i hx
    refine ⟨nofun, ?_⟩
    rintro ⟨digits, rfl, -⟩
    exact absurd rfl (hx digits)

theorem stepId?_eq_some_iff {hint : StepId} : stepId? w = some hint ↔ SpellsHint w hint := by
  rw [stepId?, Option.bind_eq_some_iff]
  simp only [natural?_eq_some_iff, StepId.ofNumber?_eq_some_iff]
  constructor
  · rintro ⟨n, hn, rfl, hlt⟩
    exact ⟨hn, hlt⟩
  · rintro ⟨hn, hlt⟩
    exact ⟨_, hn, rfl, hlt⟩

theorem kind?_eq_some_iff {kind : StepKind} : kind? w = some kind ↔ w = [kind.char] := by
  constructor
  · intro h
    unfold kind? at h
    have hbeq := List.find?_some h
    exact (eq_of_beq hbeq).symm
  · rintro rfl
    exact kind?_char kind

/-! ## The parts of a step -/

theorem readTerms_eq_ok_iff {terms : List Term} {r : Relation} :
    readTerms ws = .ok (terms, r, rest) ↔
      ∃ front, ws = front ++ r.symbol.toList :: rest ∧ SpellsTerms front terms := by
  constructor
  · intro h
    fun_induction readTerms ws generalizing terms with
    | case1 => cases h
    | case2 w ws r' hr =>
      cases h
      exact ⟨[], by rw [relation?_eq_some_iff.mp hr]; rfl, .nil⟩
    | case3 => cases h
    | case4 => cases h
    | case5 => cases h
    | case6 => cases h
    | case7 w _ coeff hcoeff v ws var hvar terms' r' rest' hrest ih =>
      cases h
      obtain ⟨digits, rfl, hdigits⟩ := var?_eq_some_iff.mp hvar
      obtain ⟨front, rfl, hfront⟩ := ih hrest
      exact ⟨w :: ('x' :: digits) :: front, rfl,
        .cons (number?_eq_some_iff.mp hcoeff) hdigits hfront⟩
  · rintro ⟨front, rfl, hfront⟩
    induction hfront with
    | nil => rw [List.nil_append, readTerms, relation?_symbol]
    | @cons w digits ws t ts hcoeff hvar _ ih =>
      have hnumber : number? w = some t.coeff := number?_eq_some_iff.mpr hcoeff
      have hvar? : var? ('x' :: digits) = some t.var := var?_eq_some_iff.mpr ⟨digits, rfl, hvar⟩
      simp only [List.cons_append, readTerms, relation?_of_isInteger hcoeff, hnumber, hvar?, ih]

theorem readBound_eq_ok_iff {bound : Int64} :
    readBound ws = .ok (bound, rest) ↔ ∃ w, ws = w :: rest ∧ IsInteger w bound.toInt := by
  simp only [← number?_eq_some_iff]
  cases ws with
  | nil => simp [readBound]
  | cons w ws =>
    rw [readBound]
    cases hw : number? w with
    | none => simp [hw]
    | some k => simp [hw, and_comm]

theorem readSemicolon_eq_ok_iff : readSemicolon ws = .ok rest ↔ ws = [';'] :: rest := by
  cases ws with
  | nil => simp [readSemicolon]
  | cons w ws =>
    rw [readSemicolon]
    by_cases hw : w = [';']
    · simp [hw]
    · simp [hw]

theorem readHints_eq_ok_iff {hints : List StepId} :
    readHints ws = .ok hints ↔ List.Forall₂ SpellsHint ws hints := by
  induction ws generalizing hints with
  | nil => simp [readHints, eq_comm]
  | cons w ws ih =>
    rw [readHints, List.forall₂_cons_left_iff]
    simp only [← stepId?_eq_some_iff, ← ih]
    cases hw : stepId? w with
    | none => simp
    | some hint =>
      cases hrest : readHints ws with
      | error e => simp [Functor.map, Except.map]
      | ok hints' => simp [Functor.map, Except.map, eq_comm]

/-- The words are read as a step exactly if they spell it. -/
theorem readStep_eq_ok_iff {entry : Entry} : readStep w ws = .ok entry ↔
    ∃ kind c hints, entry = .step kind c hints ∧ SpellsStep (w :: ws) kind c hints := by
  constructor
  · intro h
    unfold readStep at h
    split at h
    · cases h
    · rename_i kind hkind
      obtain ⟨⟨terms, relation, rest₁⟩, hterms, h⟩ := exists_of_bind_eq_ok h
      obtain ⟨⟨bound, rest₂⟩, hbound, h⟩ := exists_of_bind_eq_ok h
      obtain ⟨rest₃, hsemicolon, h⟩ := exists_of_bind_eq_ok h
      obtain ⟨hints, hhints, h⟩ := exists_of_bind_eq_ok h
      obtain ⟨c, rfl, hinput, hsame, rfl, rfl⟩ := Entry.ofParts_eq_ok h
      obtain rfl := kind?_eq_some_iff.mp hkind
      obtain ⟨front, rfl, hfront⟩ := readTerms_eq_ok_iff.mp hterms
      obtain ⟨boundWord, rfl, hboundWord⟩ := readBound_eq_ok_iff.mp hbound
      obtain rfl := readSemicolon_eq_ok_iff.mp hsemicolon
      have hdistinct : (terms.map Term.var).Nodup :=
        (hsame.map Term.var).nodup_iff.mp c.form.ascending.nodup_vars
      exact ⟨kind, c, hints, rfl, .intro hfront hdistinct hsame
        (List.pairwise_map.mpr c.form.ascending) hboundWord (readHints_eq_ok_iff.mp hhints) hinput⟩
  · rintro ⟨kind, c, hints, rfl, hspells⟩
    cases hspells with
    | @intro _ _ _ terms termWords hintWords boundWord hterms _ hsame _ hbound hhints hinput =>
      have hreadTerms : readTerms (termWords ++ c.relation.symbol.toList :: boundWord ::
          [';'] :: hintWords) = .ok (terms, c.relation, boundWord :: [';'] :: hintWords) :=
        readTerms_eq_ok_iff.mpr ⟨termWords, rfl, hterms⟩
      have hreadBound : readBound (boundWord :: [';'] :: hintWords) =
          .ok (c.bound, [';'] :: hintWords) := readBound_eq_ok_iff.mpr ⟨boundWord, rfl, hbound⟩
      have hreadHints : readHints hintWords = .ok hints := readHints_eq_ok_iff.mpr hhints
      simp only [readStep, kind?_char, hreadTerms, hreadBound, readSemicolon, if_true, hreadHints,
        ok_bind]
      exact Entry.ofParts_of_perm hsame hinput

end Words

/-! ## Lines -/

section Lines

variable {line : List Char} {text : String} {kind : StepKind} {c : Constraint}
  {hints : List StepId}

theorem isComment_iff : IsComment line text ↔
    ∃ body, trimStart (dropReturns line) = '*' :: body ∧ text = commentText body := by
  simp only [trimmed_eq_cons_iff (show isBlank '*' = false by decide)]
  constructor
  · rintro ⟨blanks, body, returns, hline, hblanks, hlast, htext⟩
    exact ⟨body, ⟨blanks, returns, hline, hblanks, hlast⟩, htext⟩
  · rintro ⟨body, ⟨blanks, returns, hline, hblanks, hlast⟩, htext⟩
    exact ⟨blanks, body, returns, hline, hblanks, hlast, htext⟩

theorem startsWithStar_iff : StartsWithStar line ↔ ∃ text, IsComment line text := by
  simp only [isComment_iff]
  rw [StartsWithStar, ← head?_trimmed, List.head?_eq_some_iff]
  constructor
  · rintro ⟨body, hbody⟩
    exact ⟨commentText body, body, hbody, rfl⟩
  · rintro ⟨text, body, hbody, -⟩
    exact ⟨body, hbody⟩

theorem readLine_of_isComment (h : IsComment line text) :
    readLine line = .ok (some (.comment text)) := by
  obtain ⟨body, hbody, rfl⟩ := isComment_iff.mp h
  rw [readLine, hbody]
  rfl

theorem IsBlankLine.not_startsWithStar (h : IsBlankLine line) : ¬StartsWithStar line := by
  intro hstar
  have hblank := h '*' (List.mem_of_find?_eq_some hstar)
  exact absurd hblank (by decide)

theorem readLine_of_isBlankLine (h : IsBlankLine line) : readLine line = .ok none := by
  have hwords := words_trimmed line
  rw [words_eq_nil_iff.mpr h] at hwords
  unfold readLine
  split
  · rename_i body hbody
    exact absurd (startsWithStar_iff.mpr ⟨_, isComment_iff.mpr ⟨body, hbody, rfl⟩⟩)
      h.not_startsWithStar
  · rw [hwords]

theorem IsStep.not_startsWithStar (h : IsStep line kind c hints) : ¬StartsWithStar line := by
  obtain ⟨ws, hsplit, hspells⟩ := h
  cases hspells
  rw [StartsWithStar, hsplit.find?_eq]
  cases kind <;> decide

theorem readLine_of_isStep (h : IsStep line kind c hints) :
    readLine line = .ok (some (.step kind c hints)) := by
  have hstar := h.not_startsWithStar
  obtain ⟨ws, hsplit, hspells⟩ := h
  have hwords := hsplit.words_eq
  cases ws with
  | nil => cases hspells
  | cons w ws =>
    rw [readLine_eq_readStep hstar hwords, readStep_eq_ok_iff.mpr ⟨kind, c, hints, rfl, hspells⟩]
    rfl

theorem readLine_of_isMalformed (h : IsMalformed line) :
    ∃ reason, readLine line = .error reason := by
  have hne : words line ≠ [] := fun hnil => h.not_blank (words_eq_nil_iff.mp hnil)
  obtain ⟨w, ws, hwords⟩ := List.exists_cons_of_ne_nil hne
  rw [readLine_eq_readStep h.not_comment hwords]
  cases hstep : readStep w ws with
  | error reason => exact ⟨reason, rfl⟩
  | ok entry =>
    obtain ⟨kind, c, hints, -, hspells⟩ := readStep_eq_ok_iff.mp hstep
    exact absurd ⟨w :: ws, words_eq_iff.mp hwords, hspells⟩ (h.not_step kind c hints)

/-- Every line is one of the four. -/
theorem line_cases (line : List Char) : (∃ text, IsComment line text) ∨ IsBlankLine line ∨
    (∃ kind c hints, IsStep line kind c hints) ∨ IsMalformed line := by
  by_cases hstar : StartsWithStar line
  · exact Or.inl (startsWithStar_iff.mp hstar)
  · by_cases hblank : IsBlankLine line
    · exact Or.inr (Or.inl hblank)
    · by_cases hstep : ∃ kind c hints, IsStep line kind c hints
      · exact Or.inr (Or.inr (Or.inl hstep))
      · exact Or.inr (Or.inr (Or.inr
          ⟨hstar, hblank, fun kind c hints h => hstep ⟨kind, c, hints, h⟩⟩))

/-- The line says what the result is: a record, nothing or an error. -/
inductive Says (line : List Char) : Except Malformation (Option Entry) → Prop
  | comment {text : String} (h : IsComment line text) : Says line (.ok (some (.comment text)))
  | blank (h : IsBlankLine line) : Says line (.ok none)
  | step {kind : StepKind} {c : Constraint} {hints : List StepId} (h : IsStep line kind c hints) :
    Says line (.ok (some (.step kind c hints)))
  | malformed {reason : Malformation} (h : IsMalformed line) : Says line (.error reason)

theorem says_readLine (line : List Char) : Says line (readLine line) := by
  obtain ⟨text, h⟩ | h | ⟨kind, c, hints, h⟩ | h := line_cases line
  · exact readLine_of_isComment h ▸ .comment h
  · exact readLine_of_isBlankLine h ▸ .blank h
  · exact readLine_of_isStep h ▸ .step h
  · obtain ⟨reason, hread⟩ := readLine_of_isMalformed h
    exact hread ▸ .malformed h

theorem says_of_readLine {result : Except Malformation (Option Entry)}
    (h : readLine line = result) : Says line result :=
  h ▸ says_readLine line

end Lines

/-! ## The law -/

/-- What is made of a line. -/
structure LineLaw (line : List Char) : Prop where
  comment_iff : (∃ text, readLine line = .ok (some (.comment text))) ↔ StartsWithStar line
  text_iff : ∀ text, readLine line = .ok (some (.comment text)) ↔ IsComment line text
  blank_iff : readLine line = .ok none ↔ IsBlankLine line
  step_iff : ∀ kind c hints,
    readLine line = .ok (some (.step kind c hints)) ↔ IsStep line kind c hints
  error_iff : (∃ reason, readLine line = .error reason) ↔ IsMalformed line

theorem lineLaw (line : List Char) : LineLaw line := by
  have htext (text : String) :
      readLine line = .ok (some (.comment text)) ↔ IsComment line text := by
    refine ⟨fun h => ?_, readLine_of_isComment⟩
    cases says_of_readLine h
    assumption
  constructor
  case comment_iff =>
    rw [startsWithStar_iff]
    exact exists_congr htext
  case text_iff => exact htext
  case blank_iff =>
    refine ⟨fun h => ?_, readLine_of_isBlankLine⟩
    cases says_of_readLine h
    assumption
  case step_iff =>
    refine fun kind c hints => ⟨fun h => ?_, readLine_of_isStep⟩
    cases says_of_readLine h
    assumption
  case error_iff =>
    refine ⟨fun ⟨reason, h⟩ => ?_, readLine_of_isMalformed⟩
    cases says_of_readLine h
    assumption

/-- What a reader answers when it has taken the line: the number of a malformed line is that
of the lines that it has taken, this one included. -/
structure AnswersLine (r : Reader) (source : Source) (line : List Char) : Prop where
  comment : ∀ text, IsComment line text →
    r.nextText = .ok (some (.comment text)) (r.took source)
  blank : IsBlankLine line → r.nextText = (r.took source).nextText
  step : ∀ kind c hints, IsStep line kind c hints →
    r.nextText = .ok (some (.step ⟨r.next, kind, c, hints⟩))
      { r.took source with next := r.next.next }
  malformed : IsMalformed line →
    ∃ reason, r.nextText = .error (.malformed (r.taken + 1) reason) (r.took source)

theorem answersLine {r : Reader} {source : Source} {bytes : List UInt8} {line : List Char}
    (hline : r.source.line? = .ok (some bytes) source) (hdecode : decode? bytes = some line) :
    AnswersLine r source line := by
  have hnext := Reader.nextText_of_line hline
  simp only [hdecode] at hnext
  constructor
  case comment =>
    intro text h
    rw [readLine_of_isComment h] at hnext
    exact hnext
  case blank =>
    intro h
    rw [readLine_of_isBlankLine h] at hnext
    exact hnext
  case step =>
    intro kind c hints h
    rw [readLine_of_isStep h] at hnext
    exact hnext
  case malformed =>
    intro h
    obtain ⟨reason, hread⟩ := readLine_of_isMalformed h
    rw [hread] at hnext
    exact ⟨reason, hnext⟩

/-- A line is read as what it is by the grammar: a comment, nothing, a step with exactly the
parts that it spells, or an error. A reader that takes it, whatever the number of the line,
answers so. -/
theorem line_grammar (line : List Char) : LineLaw line ∧
    ∀ (r : Reader) (bytes : List UInt8) (source : Source),
      r.source.line? = .ok (some bytes) source → decode? bytes = some line →
      AnswersLine r source line :=
  ⟨lineLaw line, fun _ _ _ => answersLine⟩

end CuttingPlanes.Trace.Text
