import CuttingPlanes.Proofs.Dimacs.Modes
import Mathlib.Data.List.Forall2

/-!
# Which sources are DIMACS files

A source holds a formula when its lines are text and consist of one header, the clause
lines behind it, as many as the header declares, and comments and blank lines anywhere
(`IsDocument`). The careful reader accepts exactly these sources, and it returns the
formula and the comments that the lines say (`read_eq_ok_iff`).
-/

namespace CuttingPlanes.Dimacs

open CuttingPlanes.Text

variable {lines : List (List Char)} {clauses : List (List Int)} {comments : List String}
  {h : Header} {header : Option Header} {items : List Item}

/-- Exactly one of the lines is a header, and it stands in front of all clauses. -/
def HasHeader (lines : List (List Char)) (h : Header) : Prop :=
  ∃ before line after, lines = before ++ line :: after ∧
    (∀ l ∈ before, kindOf l ≠ .header ∧ kindOf l ≠ .clause) ∧
    kindOf line = .header ∧ IsHeader line h ∧ ∀ l ∈ after, kindOf l ≠ .header

/-- The lines consist of the header, the clauses, the comments and blank lines. -/
structure Contains (lines : List (List Char)) (h : Header) (clauses : List (List Int))
    (comments : List String) : Prop where
  header : HasHeader lines h
  clauses : List.Forall₂ (IsClause h.varCount) (lines.filter (kindOf · = .clause)) clauses
  comments : List.Forall₂ IsComment (lines.filter (kindOf · = .comment)) comments

/-- The lines are those of the formula, with as many clauses as are declared. -/
structure IsDocument (lines : List (List Char)) (f : Formula) (comments : List String) :
    Prop where
  contains : Contains lines ⟨f.varCount, f.declared⟩ f.clauses comments
  declared : f.clauses.length = f.declared

/-! ## Runs of the reader -/

def headerAfter (header : Option Header) : Item → Option Header
  | .header h => some h
  | _ => header

/-- The lines contribute the items one after the other. -/
inductive Reads : Option Header → List (List Char) → List Item → Prop
  | nil (header : Option Header) : Reads header [] []
  | cons {header : Option Header} {line : List Char} {item : Item} {lines : List (List Char)}
      {items : List Item} (h : Contributes header line item)
      (hrest : Reads (headerAfter header item) lines items) :
      Reads header (line :: lines) (item :: items)

def Item.clause? : Item → Option (List Int)
  | .clause literals => some literals
  | _ => none

def Item.comment? : Item → Option String
  | .comment text => some text
  | _ => none

theorem Reads.forall₂_comments (hreads : Reads header lines items) :
    List.Forall₂ IsComment (lines.filter (kindOf · = .comment))
      (items.filterMap Item.comment?) := by
  induction hreads with
  | nil => exact .nil
  | @cons header line item lines items hitem _ ih =>
    unfold Contributes at hitem
    cases hkind : kindOf line <;> simp only [hkind] at hitem
    case comment =>
      obtain ⟨text, rfl, htext⟩ := hitem
      simpa [hkind, List.filterMap_cons, Item.comment?] using ⟨htext, ih⟩
    case blank =>
      subst hitem
      simpa [hkind, List.filterMap_cons, Item.comment?] using ih
    case header =>
      obtain ⟨declared, rfl, -⟩ := hitem
      simpa [hkind, List.filterMap_cons, Item.comment?] using ih
    case clause =>
      obtain ⟨literals, rfl, -⟩ := hitem
      simpa [hkind, List.filterMap_cons, Item.comment?] using ih

/-- Behind the header there is no other, and every clause is one of its variables. -/
theorem Reads.clauses_behind (hreads : Reads (some h) lines items) :
    (∀ l ∈ lines, kindOf l ≠ .header) ∧ items.foldl headerAfter (some h) = some h ∧
      List.Forall₂ (IsClause h.varCount) (lines.filter (kindOf · = .clause))
        (items.filterMap Item.clause?) := by
  generalize hheader : some h = header at hreads
  induction hreads with
  | nil => exact ⟨nofun, rfl, .nil⟩
  | @cons header line item lines items hitem _ ih =>
    subst hheader
    unfold Contributes at hitem
    cases hkind : kindOf line <;> simp only [hkind] at hitem
    case blank =>
      subst hitem
      simpa [hkind, List.filterMap_cons, Item.clause?, headerAfter] using ih rfl
    case comment =>
      obtain ⟨text, rfl, -⟩ := hitem
      simpa [hkind, List.filterMap_cons, Item.clause?, headerAfter] using ih rfl
    case header =>
      obtain ⟨declared, -, hnone, -⟩ := hitem
      cases hnone
    case clause =>
      obtain ⟨literals, rfl, declared, hsome, hclause⟩ := hitem
      cases hsome
      simpa [hkind, List.filterMap_cons, Item.clause?, headerAfter, hclause] using ih rfl

theorem HasHeader.cons {line : List Char} (hheader : kindOf line ≠ .header)
    (hclause : kindOf line ≠ .clause) (hrest : HasHeader lines h) :
    HasHeader (line :: lines) h := by
  obtain ⟨before, line', after, rfl, hbefore, hline⟩ := hrest
  refine ⟨line :: before, line', after, rfl, fun l hl => ?_, hline⟩
  rcases List.mem_cons.mp hl with rfl | hl
  · exact ⟨hheader, hclause⟩
  · exact hbefore l hl

theorem Reads.hasHeader (hreads : Reads none lines items)
    (hfinal : items.foldl headerAfter none = some h) :
    HasHeader lines h ∧ List.Forall₂ (IsClause h.varCount)
      (lines.filter (kindOf · = .clause)) (items.filterMap Item.clause?) := by
  generalize hheader : none = header at hreads
  -- the induction ends at the header, where the run behind it takes over
  induction hreads with
  | nil =>
    subst hheader
    cases hfinal
  | @cons header line item lines items hitem hrest ih =>
    subst hheader
    unfold Contributes at hitem
    cases hkind : kindOf line <;> simp only [hkind] at hitem
    case blank =>
      subst hitem
      obtain ⟨hheader, hclauses⟩ := ih hfinal rfl
      refine ⟨hheader.cons (by simp [hkind]) (by simp [hkind]), ?_⟩
      simpa [hkind, List.filterMap_cons, Item.clause?] using hclauses
    case comment =>
      obtain ⟨text, rfl, -⟩ := hitem
      obtain ⟨hheader, hclauses⟩ := ih hfinal rfl
      refine ⟨hheader.cons (by simp [hkind]) (by simp [hkind]), ?_⟩
      simpa [hkind, List.filterMap_cons, Item.clause?] using hclauses
    case header =>
      obtain ⟨declared, rfl, -, hline⟩ := hitem
      obtain ⟨hafter, hkeeps, hclauses⟩ := Reads.clauses_behind hrest
      rw [List.foldl_cons] at hfinal
      obtain rfl : declared = h := Option.some.inj (hkeeps.symm.trans hfinal)
      refine ⟨⟨[], line, lines, rfl, nofun, hkind, hline, hafter⟩, ?_⟩
      simpa [hkind, List.filterMap_cons, Item.clause?] using hclauses
    case clause =>
      obtain ⟨literals, -, declared, hsome, -⟩ := hitem
      cases hsome

theorem Reads.contains (hreads : Reads none lines items)
    (hfinal : items.foldl headerAfter none = some h) :
    Contains lines h (items.filterMap Item.clause?) (items.filterMap Item.comment?) := by
  obtain ⟨hheader, hclauses⟩ := hreads.hasHeader hfinal
  exact ⟨hheader, hclauses, hreads.forall₂_comments⟩

/-! ## Lines that are read -/

theorem Reads.append {before after : List (List Char)} {items items' : List Item}
    (h : Reads header before items) (h' : Reads (items.foldl headerAfter header) after items') :
    Reads header (before ++ after) (items ++ items') := by
  induction h with
  | nil => exact h'
  | cons hitem _ ih => exact .cons hitem (ih h')

/-- Lines without a header are read as what they are. -/
theorem exists_reads (hno : ∀ l ∈ lines, kindOf l ≠ .header)
    (hclauses : List.Forall₂ (IsClauseBehind header) (lines.filter (kindOf · = .clause)) clauses)
    (hcomments : List.Forall₂ IsComment (lines.filter (kindOf · = .comment)) comments) :
    ∃ items, Reads header lines items ∧ items.foldl headerAfter header = header ∧
      items.filterMap Item.clause? = clauses ∧ items.filterMap Item.comment? = comments := by
  induction lines generalizing clauses comments with
  | nil =>
    cases hclauses
    cases hcomments
    exact ⟨[], .nil _, rfl, rfl, rfl⟩
  | cons line lines ih =>
    have hrest : ∀ l ∈ lines, kindOf l ≠ .header := fun l hl => hno l (List.mem_cons_of_mem _ hl)
    cases hkind : kindOf line with
    | blank =>
      simp only [hkind, List.filter_cons, reduceCtorEq, decide_false, Bool.false_eq_true, if_false]
        at hclauses hcomments
      obtain ⟨items, hreads, hitems⟩ := ih hrest hclauses hcomments
      exact ⟨.blank :: items, .cons (by rw [Contributes, hkind]) hreads, hitems⟩
    | comment =>
      simp only [hkind, List.filter_cons, reduceCtorEq, decide_false, Bool.false_eq_true, if_false,
        decide_true, if_true] at hclauses hcomments
      obtain ⟨text, texts, htext, htexts, rfl⟩ := List.forall₂_cons_left_iff.mp hcomments
      obtain ⟨items, hreads, hheader, hclauses, rfl⟩ := ih hrest hclauses htexts
      refine ⟨.comment text :: items, .cons ?_ hreads, hheader, hclauses, rfl⟩
      rw [Contributes, hkind]
      exact ⟨text, rfl, htext⟩
    | header => exact absurd hkind (hno line List.mem_cons_self)
    | clause =>
      simp only [hkind, List.filter_cons, reduceCtorEq, decide_false, Bool.false_eq_true, if_false,
        decide_true, if_true] at hclauses hcomments
      obtain ⟨literals, others, hclause, hothers, rfl⟩ := List.forall₂_cons_left_iff.mp hclauses
      obtain ⟨items, hreads, hheader, rfl, hcomments⟩ := ih hrest hothers hcomments
      refine ⟨.clause literals :: items, .cons ?_ hreads, hheader, rfl, hcomments⟩
      rw [Contributes, hkind]
      exact ⟨literals, rfl, hclause⟩

theorem forall₂_append_left {α β : Type} {R : α → β → Prop} {as as' : List α} {bs : List β}
    (h : List.Forall₂ R (as ++ as') bs) :
    ∃ cs cs', bs = cs ++ cs' ∧ List.Forall₂ R as cs ∧ List.Forall₂ R as' cs' := by
  induction as generalizing bs with
  | nil => exact ⟨[], bs, rfl, .nil, h⟩
  | cons a as ih =>
    obtain ⟨b, bs, hab, hrest, rfl⟩ := List.forall₂_cons_left_iff.mp h
    obtain ⟨cs, cs', rfl, hcs, hcs'⟩ := ih hrest
    exact ⟨b :: cs, cs', rfl, .cons hab hcs, hcs'⟩

/-- Lines with a header in front of the clauses are read. -/
theorem Contains.exists_reads (hcontains : Contains lines h clauses comments) :
    ∃ items, Reads none lines items ∧ items.foldl headerAfter none = some h ∧
      items.filterMap Item.clause? = clauses ∧ items.filterMap Item.comment? = comments := by
  obtain ⟨⟨before, line, after, rfl, hbefore, hkind, hline, hafter⟩, hclauses, hcomments⟩ :=
    hcontains
  -- all clauses stand behind the header, but comments stand on both sides of it
  have hnone : before.filter (kindOf · = .clause) = [] := by
    simpa using fun l hl => (hbefore l hl).2
  simp only [List.filter_append, List.filter_cons, hkind, hnone, reduceCtorEq, decide_false,
    Bool.false_eq_true, if_false, List.nil_append] at hclauses hcomments
  obtain ⟨texts, texts', rfl, hcomments, hcomments'⟩ := forall₂_append_left hcomments
  have hnoClauses :
      List.Forall₂ (IsClauseBehind none) (before.filter (kindOf · = .clause)) [] := by
    rw [hnone]
    exact .nil
  obtain ⟨items, hreads, hheader, hempty, rfl⟩ :=
    Dimacs.exists_reads (fun l hl => (hbefore l hl).1) hnoClauses hcomments
  have hclauses' :
      List.Forall₂ (IsClauseBehind (some h)) (after.filter (kindOf · = .clause)) clauses :=
    hclauses.imp fun l c hc => ⟨h, rfl, hc⟩
  obtain ⟨items', hreads', hheader', rfl, rfl⟩ := Dimacs.exists_reads hafter hclauses' hcomments'
  refine ⟨items ++ .header h :: items', hreads.append (.cons ?_ hreads'), ?_, ?_, ?_⟩
  · rw [Contributes, hkind]
    exact ⟨h, rfl, hheader, hline⟩
  · simpa [hheader, headerAfter] using hheader'
  · rw [List.filterMap_append, hempty]
    rfl
  · exact List.filterMap_append

/-! ## Sources -/

theorem header_push (p : Progress) (item : Item) :
    (p.push item).header = headerAfter p.header item := by
  cases item <;> rfl

theorem items_push (p : Progress) (item : Item) :
    (p.push item).items.toList = p.items.toList ++ [item] := by
  cases item <;> exact Array.toList_push ..

theorem header_foldl_push (p : Progress) (items : List Item) :
    (items.foldl Progress.push p).header = items.foldl headerAfter p.header := by
  induction items generalizing p with
  | nil => rfl
  | cons item items ih => rw [List.foldl_cons, List.foldl_cons, ih, header_push]

theorem items_foldl_push (p : Progress) (items : List Item) :
    (items.foldl Progress.push p).items.toList = p.items.toList ++ items := by
  induction items generalizing p with
  | nil => exact (List.append_nil _).symm
  | cons item items ih =>
    rw [List.foldl_cons, ih, items_push, List.append_assoc, List.singleton_append]

/-- A header that is accepted keeps the literals behind it within 32 bits. -/
theorem Contributes.varCount_lt {line : List Char} {item : Item}
    (hitem : Contributes header line item)
    (hheader : ∀ h, header = some h → h.varCount < 0x80000000) :
    ∀ h, headerAfter header item = some h → h.varCount < 0x80000000 := by
  intro h hafter
  cases item
  case header declared =>
    obtain rfl : declared = h := Option.some.inj hafter
    unfold Contributes at hitem
    cases hkind : kindOf line <;> simp [hkind] at hitem
    exact hitem.2.varCount_lt
  all_goals exact hheader h hafter

variable {mode : Mode} {p q : Progress} {s : Source} {f : Formula}

theorem Contributes.varCount_lt_push {line : List Char} {item : Item}
    (hitem : Contributes p.header line item)
    (hheader : ∀ h, p.header = some h → h.varCount < 0x80000000) :
    ∀ h, (p.push item).header = some h → h.varCount < 0x80000000 := by
  rw [header_push]
  exact hitem.varCount_lt hheader

theorem takeLine_encode_eq_ok_iff {item : Item} {line : List Char}
    (hheader : ∀ h, p.header = some h → h.varCount < 0x80000000) :
    takeLine mode p (encode line) = .ok item ↔ Contributes p.header (mode.spell line) item := by
  rw [takeLine_of_decode? (decode?_encode line), ← readLine_spell, readLine_eq_ok_iff hheader]

theorem exists_encode_of_takeLine {bytes : List UInt8} {item : Item}
    (h : takeLine mode p bytes = .ok item) : ∃ line, bytes = encode line := by
  cases hdecode : decode? bytes with
  | none =>
    rw [takeLine_of_undecodable hdecode] at h
    cases h
  | some line => exact ⟨line, eq_encode_of_decode? hdecode⟩

/-- Lines are accepted when they contribute items one after the other. -/
theorem follow_eq_none_iff {delivered : List (List UInt8)}
    (hheader : ∀ h, p.header = some h → h.varCount < 0x80000000) :
    follow mode p delivered = (q, none) ↔ ∃ (texts : List (List Char)) (items : List Item),
      delivered = texts.map encode ∧ Reads p.header (texts.map mode.spell) items ∧
        q = items.foldl Progress.push p := by
  induction delivered generalizing p with
  | nil =>
    constructor
    · intro h
      cases h
      exact ⟨[], [], rfl, .nil _, rfl⟩
    · rintro ⟨texts, items, hlines, hreads, rfl⟩
      obtain rfl := List.map_eq_nil_iff.mp hlines.symm
      cases hreads
      rfl
  | cons bytes delivered ih =>
    constructor
    · intro h
      cases htake : takeLine mode p bytes with
      | error e =>
        rw [follow_cons_of_error htake] at h
        cases h
      | ok item =>
        obtain ⟨line, rfl⟩ := exists_encode_of_takeLine htake
        have hitem := (takeLine_encode_eq_ok_iff hheader).mp htake
        rw [follow_cons_of_ok htake] at h
        obtain ⟨texts, items, rfl, hreads, rfl⟩ := (ih (hitem.varCount_lt_push hheader)).mp h
        rw [header_push] at hreads
        exact ⟨line :: texts, item :: items, rfl, .cons hitem hreads, rfl⟩
    · rintro ⟨texts, items, hlines, hreads, rfl⟩
      obtain ⟨line, texts, rfl, rfl, rfl⟩ := List.map_eq_cons_iff.mp hlines.symm
      cases hreads with
      | @cons _ _ item _ items hitem hreads =>
        have htake := (takeLine_encode_eq_ok_iff hheader).mpr hitem
        rw [← header_push] at hreads
        rw [follow_cons_of_ok htake]
        exact (ih (hitem.varCount_lt_push hheader)).mpr ⟨texts, items, rfl, hreads, rfl⟩

/-- Lines that are accepted contribute what is read. -/
theorem reads_of_readFrom (hheader : ∀ h, p.header = some h → h.varCount < 0x80000000)
    (hread : readFrom .careful p s = ⟨items, .ok f⟩) :
    s.failure = none ∧ ∃ lines read, Source.linesOf s.rest = lines.map encode ∧
      Reads p.header lines read ∧ items = p.items.toList ++ read ∧
      (read.foldl Progress.push p).complete = .ok f := by
  obtain ⟨hfailure, q, hrun, rfl, hcomplete⟩ := readFrom_eq_ok_iff.mp hread
  obtain ⟨lines, read, hlines, hreads, rfl⟩ := (follow_eq_none_iff hheader).mp hrun
  rw [Source.lines_of_reliable hfailure] at hlines
  rw [map_spell_careful] at hreads
  exact ⟨hfailure, lines, read, hlines, hreads, items_foldl_push p read, hcomplete⟩

/-- Lines that contribute what is complete are accepted. -/
theorem readFrom_of_reads {read : List Item}
    (hheader : ∀ h, p.header = some h → h.varCount < 0x80000000) (hfailure : s.failure = none)
    (hlines : Source.linesOf s.rest = lines.map encode) (hreads : Reads p.header lines read)
    (hcomplete : (read.foldl Progress.push p).complete = .ok f) :
    readFrom .careful p s = ⟨p.items.toList ++ read, .ok f⟩ := by
  rw [← Source.lines_of_reliable hfailure] at hlines
  rw [← map_spell_careful lines] at hreads
  have hrun : follow .careful p s.lines = (read.foldl Progress.push p, none) :=
    (follow_eq_none_iff hheader).mpr ⟨lines, read, hlines, hreads, rfl⟩
  exact readFrom_eq_ok_iff.mpr
    ⟨hfailure, _, hrun, (items_foldl_push p read).symm, hcomplete⟩

/-! ## Complete files -/

theorem complete_eq_ok_iff : p.complete = .ok f ↔
    p.header = some ⟨f.varCount, f.declared⟩ ∧ p.clauses = f.clauses ∧
      f.clauses.length = f.declared := by
  unfold Progress.complete
  cases hheader : p.header with
  | none => simp
  | some h =>
    simp only [Option.some.injEq]
    split
    · rename_i hcount
      rw [Except.ok.injEq]
      constructor
      · rintro rfl
        exact ⟨rfl, rfl, hcount.symm⟩
      · rintro ⟨rfl, hclauses, -⟩
        rw [hclauses]
    · rename_i hcount
      refine ⟨nofun, ?_⟩
      rintro ⟨rfl, hclauses, hdeclared⟩
      exact absurd (hclauses ▸ hdeclared.symm) hcount

theorem clauses_foldl_push (items : List Item) :
    (items.foldl Progress.push .nothing).clauses = items.filterMap Item.clause? :=
  congrArg (List.filterMap Item.clause?) (items_foldl_push .nothing items)

/-- The careful reader accepts exactly the DIMACS files, with the formula and the comments
that their lines say. -/
theorem read_eq_ok_iff (s : Source) (f : Formula) (comments : List String) :
    ((read .careful s).result = .ok f ∧ (read .careful s).comments = comments) ↔
      s.failure = none ∧ ∃ lines, Source.linesOf s.rest = lines.map encode ∧
        IsDocument lines f comments := by
  have hnothing : ∀ h, Progress.nothing.header = some h → h.varCount < 0x80000000 := nofun
  constructor
  · rintro ⟨hresult, rfl⟩
    have hread : readFrom .careful .nothing s = ⟨(read .careful s).items, .ok f⟩ := by
      rw [← hresult]
      rfl
    obtain ⟨hfailure, lines, items, hlines, hreads, hitems, hcomplete⟩ :=
      reads_of_readFrom hnothing hread
    obtain ⟨hheader, hclauses, hdeclared⟩ := complete_eq_ok_iff.mp hcomplete
    rw [header_foldl_push] at hheader
    rw [clauses_foldl_push] at hclauses
    refine ⟨hfailure, lines, hlines, ?_, hdeclared⟩
    have hcomments : (read .careful s).comments = items.filterMap Item.comment? :=
      congrArg (List.filterMap Item.comment?) hitems
    rw [← hclauses, hcomments]
    exact hreads.contains hheader
  · rintro ⟨hfailure, lines, hlines, hcontains, hdeclared⟩
    obtain ⟨items, hreads, hheader, hclauses, rfl⟩ := hcontains.exists_reads
    have hcomplete : (items.foldl Progress.push .nothing).complete = .ok f :=
      complete_eq_ok_iff.mpr ⟨(header_foldl_push _ _).trans hheader,
        (clauses_foldl_push items).trans hclauses, hdeclared⟩
    have hread : read .careful s = ⟨items, .ok f⟩ :=
      readFrom_of_reads hnothing hfailure hlines hreads hcomplete
    rw [hread]
    exact ⟨rfl, rfl⟩

/-- A clause is sorted, whatever the order and the spelling of its literals. -/
example : (read .careful (.ofBytes (encode
    "c example\np cnf 3 2\r\n3 -1 0\n +2 00".toList))).result.toOption =
      some ⟨3, 2, [[-1, 3], [2]]⟩ := by
  cbv

end CuttingPlanes.Dimacs
