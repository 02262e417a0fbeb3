import CuttingPlanes.Proofs.Trace.Reading
import CuttingPlanes.Proofs.Varint.RoundTrip

/-!
# The parts of a binary record

Every part of a record is read from its own bytes and nothing else, so a record is
read from the bytes of its parts. Numbers and counts must be less than 2 ^ 63, as they
are written as integers of 64 bits with a sign.
-/

namespace CuttingPlanes

/-- A form has less than 2 ^ 32 terms, since no variable stands twice. -/
theorem LinearForm.length_terms_lt (f : LinearForm) : f.terms.length < 0x100000000 := by
  have hnodup : (f.terms.map (·.var.number)).Nodup :=
    List.pairwise_map.mpr (f.ascending.imp fun h => Nat.ne_of_lt h)
  have hsubset : f.terms.map (·.var.number) ⊆ List.range' 1 0xFFFFFFFF := by
    intro n hn
    obtain ⟨t, -, rfl⟩ := List.mem_map.mp hn
    have hpos := t.var.pos
    have hlt := t.var.lt
    exact List.mem_range'_1.mpr ⟨by omega, by omega⟩
  have hle := (List.subperm_of_subset hnodup hsubset).length_le
  rw [List.length_map, List.length_range'] at hle
  omega

namespace Trace.Binary

open Source Varint

theorem takes_require {α : Type} (reason : Malformation) (a : α) :
    Takes (require reason (some a)) [] a := .pure a

theorem takes_int (v : Int64) : Takes int (encode v) v :=
  .bind_nil (.adaptExcept _ (takes_read? v)) (takes_require _ v)

theorem toInt_ofNat {n : Nat} (h : n < 0x8000000000000000) : (Int64.ofNat n).toInt = n :=
  Int64.toInt_ofNat_of_lt h

theorem takes_length {n : Nat} (h : n < 0x8000000000000000) : Takes length (encodeNat n) n := by
  have hn := toInt_ofNat h
  refine .bind_nil (takes_int _) ?_
  rw [hn, if_neg (by omega), Int.toNat_natCast]
  exact .pure n

theorem takes_term (t : Term) :
    Takes term (encode t.coeff ++ encodeNat t.var.number) t := by
  have hn := toInt_ofNat (Nat.lt_trans t.var.lt (by decide))
  refine .bind (takes_int _) (.bind_nil (takes_int _) ?_)
  rw [hn, Int.toNat_natCast, Variable.ofNat?_number]
  exact .bind_nil (takes_require _ t.var) (.pure t)

theorem takes_hint {h : StepId} (hh : h.number < 0x8000000000000000) :
    Takes hint (encodeNat h.number) h := by
  have hid : StepId.ofNumber? h.number = some h :=
    StepId.ofNumber?_eq_some_iff.mpr ⟨rfl, Nat.lt_trans hh (by decide)⟩
  refine .bind_nil (takes_int _) ?_
  rw [toInt_ofNat hh, Int.toNat_natCast, hid]
  exact takes_require _ h

theorem takes_repeated {α : Type} {item : Parser α} {bytes : α → List UInt8} {as : List α}
    (h : ∀ a ∈ as, Takes item (bytes a) a) :
    Takes (repeated item as.length) (as.flatMap bytes) as := by
  induction as with
  | nil => exact .pure []
  | cons a as ih =>
    have hrest := ih fun a ha => h a (List.mem_cons_of_mem _ ha)
    exact .bind (h a List.mem_cons_self) (.bind_nil hrest (.pure _))

/-! ## Records -/

def termBytes (t : Term) : List UInt8 := encode t.coeff ++ encodeNat t.var.number

/-- The bytes of a step behind the code of its kind. The terms stand in any order. -/
def partsBody (relation : Relation) (terms : List Term) (bound : Int64) (hints : List StepId) :
    List UInt8 :=
  [relation.code] ++ (encodeNat terms.length ++ (terms.flatMap termBytes ++ (encode bound ++
    (encodeNat hints.length ++ hints.flatMap fun h => encodeNat h.number))))

/-- The bytes of a step with the parts of a constraint, its terms in their own order. -/
def stepBody (c : Constraint) (hints : List StepId) : List UInt8 :=
  partsBody c.relation c.form.terms c.bound hints

theorem flatten_stepPieces (kind : StepKind) (c : Constraint) (hints : List StepId) :
    (stepPieces kind c hints).flatten = kind.code :: stepBody c hints := by
  have hterms : (c.form.terms.flatMap fun t => [encode t.coeff, encodeNat t.var.number]).flatten =
      c.form.terms.flatMap termBytes := by
    rw [List.flatten_eq_flatMap, List.flatMap_assoc]
    apply List.flatMap_congr
    intro t _
    simp [termBytes]
  have hhints : (hints.map fun h => encodeNat h.number).flatten =
      hints.flatMap fun h => encodeNat h.number := rfl
  simp [stepPieces, stepBody, partsBody, hterms, hhints]

/-- The hints of a step can be written in binary. -/
structure HintsFit (hints : List StepId) : Prop where
  length_lt : hints.length < 0x8000000000000000
  number_lt : ∀ h ∈ hints, h.number < 0x8000000000000000

theorem takes_partsBody {kind : StepKind} {relation : Relation} {terms : List Term}
    {bound : Int64} {hints : List StepId} {e : Entry}
    (h : Entry.ofParts kind terms relation bound hints = .ok e)
    (hcount : terms.length < 0x8000000000000000) (hfit : HintsFit hints) :
    Takes (step kind) (partsBody relation terms bound hints) e := by
  have hrelation {reason : Malformation} :
      Takes (require reason (Relation.ofCode? relation.code)) [] relation := by
    rw [Relation.ofCode?_code]
    exact takes_require reason relation
  have hterms : Takes (repeated term terms.length) (terms.flatMap termBytes) terms :=
    takes_repeated fun t _ => takes_term t
  have hhints := takes_repeated fun h hh => takes_hint (hfit.number_lt h hh)
  have hparts : Takes (ofExcept (Entry.ofParts kind terms relation bound hints)) [] e := by
    rw [h]
    exact .pure e
  exact .bind (.adaptExcept _ (takes_byte _)) (.nil_bind hrelation
    (.bind (takes_length hcount) (.bind hterms (.bind (takes_int bound)
      (.bind (takes_length hfit.length_lt) (.bind_nil hhints hparts))))))

theorem takes_step {kind : StepKind} {hints : List StepId} (c : Constraint)
    (hinput : kind = .input → hints = []) (hfit : HintsFit hints) :
    Takes (step kind) (stepBody c hints) (.step kind c hints) :=
  takes_partsBody (Entry.ofParts_terms c hinput)
    (Nat.lt_trans c.form.length_terms_lt (by decide)) hfit

def commentBody (text : List Char) : List UInt8 :=
  encodeNat (Text.encode text).length ++ Text.encode text

theorem takes_comment {text : List Char}
    (h : (Text.encode text).length < 0x8000000000000000) :
    Takes comment (commentBody text) (.comment (String.ofList text)) := by
  refine .bind (takes_length h) (.bind_nil (.adaptExcept _ (takes_upTo _)) ?_)
  rw [if_neg (Nat.lt_irrefl _), Text.decode?_encode]
  exact .bind_nil (takes_require _ text) (.pure _)

end Trace.Binary

end CuttingPlanes
