import CuttingPlanes.Proofs.Trace.Binary.RoundTrip

/-!
# How binary records are spelled

A spelling is what the bytes of a binary record say, with the terms in the order in which
they stand there. Every part that is read successfully stood at the front of the source in
the one form in which it is written, so a record is read only from the bytes of a spelling
of it (`exists_spelling_of_entry`). Spellings end themselves: no two of them begin in the
same way (`Spelling.bytes_append_inj`).
-/

namespace CuttingPlanes

open Actions Source

namespace Source

variable {ε ε' α : Type} {act : EStateM ε Source α} {bytes : α → List UInt8} {s t : Source}

/-- What the action succeeds with stood at the front of the source as the given bytes. -/
def Reads (act : EStateM ε Source α) (bytes : α → List UInt8) : Prop :=
  ∀ s t a, act s = .ok a t → s.rest = bytes a ++ t.rest

theorem Reads.adaptExcept (f : ε → ε') (h : Reads act bytes) :
    Reads (EStateM.adaptExcept f act) bytes := by
  intro s t a hrun
  exact h _ _ _ (eq_ok_of_adaptExcept hrun)

theorem rest_of_byte?_some {b : UInt8} (h : byte? s = .ok (some b) t) : s.rest = b :: t.rest := by
  unfold byte? atEnd at h
  split at h
  · split at h <;> cases h
  · cases h
    assumption

theorem reads_byte : Reads byte fun b => [b] := by
  intro s t b h
  obtain ⟨b?, s', hbyte, h⟩ := exists_of_run_bind_eq_ok h
  cases b? with
  | none => cases h
  | some b' =>
    cases h
    exact rest_of_byte?_some hbyte

theorem length_le_of_upTo {count : Nat} {taken : List UInt8} (h : upTo count s = .ok taken t) :
    taken.length ≤ count := by
  unfold upTo atEnd at h
  dsimp only at h
  split at h
  · cases h
    exact List.length_take_le _ _
  · split at h <;> cases h
    exact List.length_take_le _ _

theorem reads_upTo (count : Nat) : Reads (upTo count) id := by
  intro s t taken h
  unfold upTo atEnd at h
  dsimp only at h
  split at h
  · cases h
    exact (List.take_append_drop count s.rest).symm
  · rename_i hshort
    split at h <;> cases h
    rw [List.length_take] at hshort
    have hall : s.rest.take count = s.rest := List.take_of_length_le (by omega)
    simp [hall, exhausted]

end Source

namespace Varint

variable {s t : Source} {v : Int64}

theorem scan_of_readFrom {start : Nat} {taken : Taken} (h : readFrom start taken s = .ok v t) :
    scan taken s.rest = (.ok v, t.rest) := by
  fun_induction readFrom start taken s with
  | case1 => cases h
  | case2 => cases h
  | case3 taken s b s' hbyte taken' hpush ih =>
    rw [rest_of_byte?_some hbyte, scan, hpush]
    exact ih h
  | case4 taken s b s' hbyte v' hpush =>
    cases h
    rw [rest_of_byte?_some hbyte, scan, hpush]
  | case5 => cases h

/-- An integer is read only where it stands in the form in which it is written. -/
theorem rest_of_read? (h : read? s = .ok (some v) t) : s.rest = encode v ++ t.rest := by
  unfold read? at h
  split at h
  · cases h
  · split at h <;> cases h
    exact scan_eq_ok_iff.mp (scan_of_readFrom ‹_›)

end Varint

theorem Relation.code_of_ofCode? {code : UInt8} {relation : Relation}
    (h : ofCode? code = some relation) : relation.code = code := by
  unfold ofCode? at h
  have hfound := List.find?_some h
  exact eq_of_beq hfound

theorem Relation.code_injective {relation relation' : Relation}
    (h : relation.code = relation'.code) : relation = relation' := by
  have hread := ofCode?_code relation
  rw [h, ofCode?_code, Option.some.injEq] at hread
  exact hread.symm

theorem StepKind.code_of_ofCode? {code : UInt8} {kind : StepKind}
    (h : ofCode? code = some kind) : kind.code = code := by
  unfold ofCode? at h
  have hfound := List.find?_some h
  exact eq_of_beq hfound

theorem StepKind.code_injective {kind kind' : StepKind} (h : kind.code = kind'.code) :
    kind = kind' := by
  have hread := ofCode?_code kind
  rw [h, ofCode?_code, Option.some.injEq] at hread
  exact hread.symm

/-- Inputs have no hints. -/
def Trace.Entry.HintsAllowed : Trace.Entry → Prop
  | .comment _ => True
  | .step kind _ hints => kind = .input → hints = []

namespace Trace.Binary

open Varint

variable {s t : Source}

/-! ## Parts -/

theorem require_eq_ok {α : Type} {reason : Malformation} {a? : Option α} {a : α}
    (h : require reason a? s = .ok a t) : a? = some a ∧ t = s := by
  cases a? <;> cases h
  exact ⟨rfl, rfl⟩

theorem ofExcept_eq_ok {α : Type} {x : Except Malformation α} {a : α}
    (h : ofExcept x s = .ok a t) : x = .ok a ∧ t = s := by
  cases x <;> cases h
  exact ⟨rfl, rfl⟩

theorem reads_int : Reads int encode := by
  intro s t v h
  obtain ⟨v?, s', hread, h⟩ := exists_of_run_bind_eq_ok h
  obtain ⟨rfl, rfl⟩ := require_eq_ok h
  exact rest_of_read? (eq_ok_of_adaptExcept hread)

/-- A number that is not negative has the form in which it is written. -/
theorem encode_eq_encodeNat {v : Int64} (h : 0 ≤ v.toInt) : encode v = encodeNat v.toInt.toNat := by
  have hlt := v.toInt_lt
  have hv : (Int64.ofNat v.toInt.toNat).toInt = v.toInt := by
    rw [toInt_ofNat (by omega), Int.toNat_of_nonneg h]
  rw [encodeNat, Int64.toInt_inj.mp hv]

theorem length_eq_ok {n : Nat} (h : length s = .ok n t) : n < 0x8000000000000000 := by
  obtain ⟨v, s', -, h⟩ := exists_of_run_bind_eq_ok h
  split at h <;> cases h
  have hlt := v.toInt_lt
  omega

theorem reads_length : Reads length encodeNat := by
  intro s t n h
  obtain ⟨v, s', hint, h⟩ := exists_of_run_bind_eq_ok h
  split at h <;> cases h
  rename_i hnonneg
  rw [reads_int _ _ _ hint, encode_eq_encodeNat (Int.not_lt.mp hnonneg)]

theorem reads_term : Reads term termBytes := by
  intro s t u h
  obtain ⟨coeff, s₁, hcoeff, h⟩ := exists_of_run_bind_eq_ok h
  obtain ⟨number, s₂, hnumber, h⟩ := exists_of_run_bind_eq_ok h
  obtain ⟨var, s₃, hrequire, h⟩ := exists_of_run_bind_eq_ok h
  cases h
  obtain ⟨hvar, rfl⟩ := require_eq_ok hrequire
  have heq := Variable.ofNat?_eq_some_iff.mp hvar
  have hpos := var.pos
  have hnonneg : 0 ≤ number.toInt := by omega
  rw [reads_int _ _ _ hcoeff, reads_int _ _ _ hnumber, encode_eq_encodeNat hnonneg, ← heq,
    termBytes, List.append_assoc]

theorem number_lt_of_hint {id : StepId} (h : hint s = .ok id t) :
    id.number < 0x8000000000000000 := by
  obtain ⟨number, s', -, h⟩ := exists_of_run_bind_eq_ok h
  obtain ⟨heq, -⟩ := StepId.ofNumber?_eq_some_iff.mp (require_eq_ok h).1
  have hlt := number.toInt_lt
  omega

theorem reads_hint : Reads hint fun id => encodeNat id.number := by
  intro s t id h
  obtain ⟨number, s', hnumber, h⟩ := exists_of_run_bind_eq_ok h
  obtain ⟨hid, rfl⟩ := require_eq_ok h
  obtain ⟨heq, -⟩ := StepId.ofNumber?_eq_some_iff.mp hid
  have hpos : 0 < id.number := Nat.succ_pos _
  have hnonneg : 0 ≤ number.toInt := by omega
  have hrest := reads_int _ _ _ hnumber
  rwa [encode_eq_encodeNat hnonneg, ← heq] at hrest

theorem repeated_eq_ok {α : Type} {item : Parser α} {count : Nat} {as : List α}
    (h : repeated item count s = .ok as t) : as.length = count := by
  induction count generalizing s as with
  | zero =>
    cases h
    rfl
  | succ count ih =>
    obtain ⟨a, s₁, -, h⟩ := exists_of_run_bind_eq_ok h
    obtain ⟨as', s₂, hrest, h⟩ := exists_of_run_bind_eq_ok h
    cases h
    rw [List.length_cons, ih hrest]

theorem reads_repeated {α : Type} {item : Parser α} {bytes : α → List UInt8}
    (h : Reads item bytes) (count : Nat) : Reads (repeated item count) (·.flatMap bytes) := by
  induction count with
  | zero =>
    intro s t as hrun
    cases hrun
    rfl
  | succ count ih =>
    intro s t as hrun
    obtain ⟨a, s₁, ha, hrun⟩ := exists_of_run_bind_eq_ok hrun
    obtain ⟨as', s₂, has, hrun⟩ := exists_of_run_bind_eq_ok hrun
    cases hrun
    have hrest : s₁.rest = as'.flatMap bytes ++ t.rest := ih _ _ _ has
    show s.rest = (a :: as').flatMap bytes ++ t.rest
    rw [h _ _ _ ha, hrest, List.flatMap_cons, List.append_assoc]

theorem forall_of_repeated {α : Type} {item : Parser α} {P : α → Prop}
    (h : ∀ s t a, item s = .ok a t → P a) {count : Nat} {as : List α}
    (hrun : repeated item count s = .ok as t) : ∀ a ∈ as, P a := by
  induction count generalizing s as with
  | zero =>
    cases hrun
    exact List.forall_mem_nil P
  | succ count ih =>
    obtain ⟨a, s₁, ha, hrun⟩ := exists_of_run_bind_eq_ok hrun
    obtain ⟨as', s₂, has, hrun⟩ := exists_of_run_bind_eq_ok hrun
    cases hrun
    exact List.forall_mem_cons.mpr ⟨h _ _ _ ha, ih has⟩

/-! ## Spellings -/

/-- What the bytes of a record say. The terms of a step stand in any order. -/
inductive Spelling
  | comment (text : String)
  | step (kind : StepKind) (relation : Relation) (terms : List Term) (bound : Int64)
    (hints : List StepId)
deriving DecidableEq

namespace Spelling

def bytes : Spelling → List UInt8
  | .comment text => commentCode :: commentBody text.toList
  | .step kind relation terms bound hints =>
    kind.code :: partsBody relation terms bound hints

/-- The lengths and numbers are those of a binary record. -/
def Fits : Spelling → Prop
  | .comment text => (Text.encode text.toList).length < 0x8000000000000000
  | .step _ _ terms _ hints => terms.length < 0x8000000000000000 ∧ HintsFit hints

def IsAscending : Spelling → Prop
  | .comment _ => True
  | .step _ _ terms _ _ => Ascending terms

/-- How an entry is written. -/
def ofEntry : Entry → Spelling
  | .comment text => .comment text
  | .step kind c hints => .step kind c.relation c.form.terms c.bound hints

/-- How a record is written. -/
def ofRecord : Record → Spelling
  | .comment text => .comment text
  | .step s => ofEntry (.step s.kind s.constraint s.hints)

theorem bytes_ofRecord (record : Record) :
    (ofRecord record).bytes = Writer.bytesOf .binary record := by
  cases record with
  | comment text => exact (Reader.bytesOf_comment_binary text).symm
  | step s => exact (Reader.bytesOf_step_binary s).symm

theorem isAscending_ofRecord (record : Record) : (ofRecord record).IsAscending := by
  cases record with
  | comment text => trivial
  | step s => exact s.constraint.form.ascending

/-- The spellings differ at most in the order of the terms. -/
inductive Reorders : Spelling → Spelling → Prop
  | comment (text : String) : Reorders (.comment text) (.comment text)
  | step (kind : StepKind) (relation : Relation) {terms terms' : List Term} (bound : Int64)
    (hints : List StepId) (h : terms.Perm terms') :
    Reorders (.step kind relation terms bound hints) (.step kind relation terms' bound hints)

variable {x y z : Spelling}

theorem Reorders.symm (h : x.Reorders y) : y.Reorders x := by
  cases h with
  | comment text => exact .comment text
  | step kind relation bound hints h => exact .step kind relation bound hints h.symm

theorem Reorders.trans (h : x.Reorders y) (h' : y.Reorders z) : x.Reorders z := by
  cases h with
  | comment text => exact h'
  | step kind relation bound hints h =>
    cases h' with
    | step _ _ _ _ h' => exact .step kind relation bound hints (h.trans h')

theorem Reorders.fits (h : x.Reorders y) (hx : x.Fits) : y.Fits := by
  cases h with
  | comment text => exact hx
  | step kind relation bound hints h => exact ⟨h.length_eq ▸ hx.1, hx.2⟩

/-- The order of the terms does not change how many bytes there are. -/
theorem Reorders.length_bytes (h : x.Reorders y) : x.bytes.length = y.bytes.length := by
  cases h with
  | comment text => rfl
  | step kind relation bound hints h =>
    have hterms := (h.flatMap_right termBytes).length_eq
    simp only [bytes, partsBody, List.length_cons, List.length_append, h.length_eq, hterms]

/-- There is only one ascending order. -/
theorem Reorders.eq (h : x.Reorders y) (hx : x.IsAscending) (hy : y.IsAscending) : x = y := by
  cases h with
  | comment text => rfl
  | step kind relation bound hints h =>
    rw [hx.eq_of_perm hy h]

end Spelling

/-! ## Spellings end themselves -/

section Inj

variable {rest rest' : List UInt8}

theorem encodeNat_append_inj {m n : Nat} (hm : m < 0x8000000000000000)
    (hn : n < 0x8000000000000000) (h : encodeNat m ++ rest = encodeNat n ++ rest') :
    m = n ∧ rest = rest' := by
  obtain ⟨hv, hrest⟩ := encode_append_inj h
  have hnumbers := congrArg Int64.toInt hv
  rw [toInt_ofNat hm, toInt_ofNat hn] at hnumbers
  exact ⟨Int.ofNat.inj hnumbers, hrest⟩

theorem termBytes_append_inj {t u : Term} (h : termBytes t ++ rest = termBytes u ++ rest') :
    t = u ∧ rest = rest' := by
  rw [termBytes, termBytes, List.append_assoc, List.append_assoc] at h
  obtain ⟨hcoeff, h⟩ := encode_append_inj h
  obtain ⟨hnumber, hrest⟩ := encodeNat_append_inj (Nat.lt_trans t.var.lt (by decide))
    (Nat.lt_trans u.var.lt (by decide)) h
  obtain ⟨coeff, var⟩ := t
  obtain rfl : coeff = u.coeff := hcoeff
  obtain rfl : var = u.var := Variable.ext hnumber
  exact ⟨rfl, hrest⟩

theorem hint_append_inj {g h : StepId} (hg : g.number < 0x8000000000000000)
    (hh : h.number < 0x8000000000000000)
    (heq : encodeNat g.number ++ rest = encodeNat h.number ++ rest') : g = h ∧ rest = rest' := by
  obtain ⟨hnumber, hrest⟩ := encodeNat_append_inj hg hh heq
  exact ⟨congrArg StepId.mk (Nat.succ.inj hnumber), hrest⟩

/-- Equally many items that end themselves are told from what follows. -/
theorem flatMap_append_inj {α : Type} {bytes : α → List UInt8} {as bs : List α}
    (hinj : ∀ a ∈ as, ∀ b ∈ bs, ∀ {rest rest'},
      bytes a ++ rest = bytes b ++ rest' → a = b ∧ rest = rest')
    (hlength : as.length = bs.length)
    (h : as.flatMap bytes ++ rest = bs.flatMap bytes ++ rest') : as = bs ∧ rest = rest' := by
  induction as generalizing bs with
  | nil =>
    obtain rfl := List.length_eq_zero_iff.mp hlength.symm
    exact ⟨rfl, h⟩
  | cons a as ih =>
    cases bs with
    | nil => cases hlength
    | cons b bs =>
      rw [List.flatMap_cons, List.flatMap_cons, List.append_assoc, List.append_assoc] at h
      obtain ⟨rfl, htail⟩ := hinj a List.mem_cons_self b List.mem_cons_self h
      obtain ⟨rfl, hrest⟩ := ih
        (fun c hc d hd => hinj c (List.mem_cons_of_mem _ hc) d (List.mem_cons_of_mem _ hd))
        (Nat.succ.inj hlength) htail
      exact ⟨rfl, hrest⟩

theorem commentCode_ne_code (kind : StepKind) : commentCode ≠ kind.code := by
  cases kind <;> decide

namespace Spelling

variable {x y : Spelling}

/-- No spelling begins as another one. -/
theorem bytes_append_inj (hx : x.Fits) (hy : y.Fits) (h : x.bytes ++ rest = y.bytes ++ rest') :
    x = y ∧ rest = rest' := by
  cases x with
  | comment text =>
    cases y with
    | comment text' =>
      simp only [bytes, commentBody, List.cons_append, List.append_assoc, List.cons.injEq,
        true_and] at h
      obtain ⟨hlength, h⟩ := encodeNat_append_inj hx hy h
      obtain ⟨htext, hrest⟩ := List.append_inj h hlength
      have hdecoded := congrArg Text.decode? htext
      rw [Text.decode?_encode, Text.decode?_encode, Option.some.injEq] at hdecoded
      exact ⟨congrArg comment (String.toList_inj.mp hdecoded), hrest⟩
    | step kind => exact absurd (List.cons.inj h).1 (commentCode_ne_code kind)
  | step kind relation terms bound hints =>
    cases y with
    | comment => exact absurd (List.cons.inj h).1.symm (commentCode_ne_code kind)
    | step kind' relation' terms' bound' hints' =>
      obtain ⟨hterms, hhints⟩ := hx
      obtain ⟨hterms', hhints'⟩ := hy
      simp only [bytes, partsBody, List.cons_append, List.nil_append, List.append_assoc,
        List.cons.injEq] at h
      obtain ⟨hkind, hrelation, hbody⟩ := h
      obtain ⟨hcount, hbody⟩ := encodeNat_append_inj hterms hterms' hbody
      obtain ⟨heqTerms, hbody⟩ :=
        flatMap_append_inj (fun _ _ _ _ => termBytes_append_inj) hcount hbody
      obtain ⟨heqBound, hbody⟩ := encode_append_inj hbody
      obtain ⟨hcount', hbody⟩ := encodeNat_append_inj hhints.length_lt hhints'.length_lt hbody
      obtain ⟨heqHints, hrest⟩ := flatMap_append_inj (fun g hg h hh =>
        hint_append_inj (hhints.number_lt g hg) (hhints'.number_lt h hh)) hcount' hbody
      rw [StepKind.code_injective hkind, Relation.code_injective hrelation, heqTerms, heqBound,
        heqHints]
      exact ⟨rfl, hrest⟩

end Spelling

end Inj

/-! ## Records -/

/-- An entry is read from the bytes of any spelling of it. -/
theorem takes_of_reorders {x : Spelling} {e : Entry} (hx : x.Fits) (h : x.Reorders (.ofEntry e))
    (hallowed : e.HintsAllowed) : ∃ code body, x.bytes = code :: body ∧ Takes (entry code) body e := by
  cases e with
  | comment text =>
    cases h
    have htakes := takes_comment hx
    rw [String.ofList_toList] at htakes
    exact ⟨commentCode, commentBody text.toList, rfl, htakes⟩
  | step kind c hints =>
    cases h with
    | @step _ _ terms _ _ _ hterms =>
      have htakes := takes_partsBody (Entry.ofParts_of_perm hterms.symm hallowed) hx.1 hx.2
      rw [← Reader.entry_code] at htakes
      exact ⟨kind.code, partsBody c.relation terms c.bound hints, rfl, htakes⟩

theorem exists_spelling_of_step {kind : StepKind} {e : Entry} (h : step kind s = .ok e t) :
    ∃ x : Spelling, x.Fits ∧ kind.code :: s.rest = x.bytes ++ t.rest ∧
      x.Reorders (.ofEntry e) ∧ e.HintsAllowed := by
  obtain ⟨code, s₁, hcode, h⟩ := exists_of_run_bind_eq_ok h
  obtain ⟨relation, s₂, hrequire, h⟩ := exists_of_run_bind_eq_ok h
  obtain ⟨termCount, s₃, htermCount, h⟩ := exists_of_run_bind_eq_ok h
  obtain ⟨terms, s₄, hterms, h⟩ := exists_of_run_bind_eq_ok h
  obtain ⟨bound, s₅, hbound, h⟩ := exists_of_run_bind_eq_ok h
  obtain ⟨hintCount, s₆, hhintCount, h⟩ := exists_of_run_bind_eq_ok h
  obtain ⟨hints, s₇, hhints, hformed⟩ := exists_of_run_bind_eq_ok h
  obtain ⟨hrelation, rfl⟩ := require_eq_ok hrequire
  obtain ⟨hparts, rfl⟩ := ofExcept_eq_ok hformed
  obtain ⟨c, rfl, hallowed, hperm, rfl, rfl⟩ := Entry.ofParts_eq_ok hparts
  have hcode' := reads_byte.adaptExcept _ _ _ _ hcode
  have htermCount' := reads_length _ _ _ htermCount
  have hterms' := reads_repeated reads_term termCount _ _ _ hterms
  have hbound' := reads_int _ _ _ hbound
  have hhintCount' := reads_length _ _ _ hhintCount
  have hhints' := reads_repeated reads_hint hintCount _ _ _ hhints
  have htermsLength := repeated_eq_ok hterms
  have hhintsLength := repeated_eq_ok hhints
  refine ⟨.step kind c.relation terms c.bound hints, ⟨?_, ?_, ?_⟩, ?_,
    .step _ _ _ _ hperm.symm, hallowed⟩
  · rw [htermsLength]
    exact length_eq_ok htermCount
  · rw [hhintsLength]
    exact length_eq_ok hhintCount
  · exact forall_of_repeated (fun _ _ _ => number_lt_of_hint) hhints
  · rw [hcode', htermCount', hterms', hbound', hhintCount', hhints', Spelling.bytes, partsBody,
      Relation.code_of_ofCode? hrelation, htermsLength, hhintsLength]
    simp only [List.append_assoc, List.cons_append, List.nil_append]

theorem exists_spelling_of_comment {e : Entry} (h : comment s = .ok e t) :
    ∃ x : Spelling, x.Fits ∧ commentCode :: s.rest = x.bytes ++ t.rest ∧
      x.Reorders (.ofEntry e) ∧ e.HintsAllowed := by
  obtain ⟨count, s₁, hcount, h⟩ := exists_of_run_bind_eq_ok h
  obtain ⟨body, s₂, hbody, h⟩ := exists_of_run_bind_eq_ok h
  split at h
  · cases h
  · rename_i hfull
    obtain ⟨text, s₃, hrequire, h⟩ := exists_of_run_bind_eq_ok h
    cases h
    obtain ⟨htext, rfl⟩ := require_eq_ok hrequire
    obtain rfl := Text.eq_encode_of_decode? htext
    have hupTo := eq_ok_of_adaptExcept hbody
    have hlength : (Text.encode text).length = count :=
      Nat.le_antisymm (length_le_of_upTo hupTo) (Nat.le_of_not_lt hfull)
    refine ⟨.comment (String.ofList text), ?_, ?_, .comment _, trivial⟩
    · rw [Spelling.Fits, String.toList_ofList, hlength]
      exact length_eq_ok hcount
    · rw [reads_length _ _ _ hcount, reads_upTo count _ _ _ hupTo, Spelling.bytes, commentBody,
        String.toList_ofList, hlength, List.cons_append, List.append_assoc]
      rfl

/-- An entry is read only from the bytes of a spelling of it. -/
theorem exists_spelling_of_entry {code : UInt8} {e : Entry} (h : entry code s = .ok e t) :
    ∃ x : Spelling, x.Fits ∧ code :: s.rest = x.bytes ++ t.rest ∧
      x.Reorders (.ofEntry e) ∧ e.HintsAllowed := by
  by_cases hcode : code = commentCode
  · rw [entry, if_pos hcode] at h
    rw [hcode]
    exact exists_spelling_of_comment h
  · rw [entry, if_neg hcode] at h
    cases hkind : StepKind.ofCode? code with
    | none =>
      rw [hkind] at h
      cases h
    | some kind =>
      rw [hkind] at h
      rw [← StepKind.code_of_ofCode? hkind]
      exact exists_spelling_of_step h

end Trace.Binary

end CuttingPlanes
