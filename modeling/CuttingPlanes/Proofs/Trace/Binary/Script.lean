import CuttingPlanes.Proofs.Trace.Binary.Spelling

/-!
# The reads of a binary record

A parser of binary records takes codes, blocks of bytes and integers from the source, and what
it takes next depends on what it has taken. A script says so step by step (`Script`). What
holds of all the reads of a parser is proved by induction along a script: which integer is to
blame for an error (`Script.blames_of_varint`), and how many integers are read
(`Script.paidFor`). Every part of the parser runs the script that stands in its definition,
up to a whole record (`Scripted.entry`).
-/

namespace CuttingPlanes.Trace.Binary

open Actions Source Varint

/-- The reads that are still to come: none, because there is a result or a refusal, or one
and what follows it. -/
inductive Script (α : Type)
  | done (a : α)
  | refused (reason : Malformation)
  | code (next : UInt8 → Script α)
  | block (count : Nat) (next : List UInt8 → Script α)
  | int (next : Int64 → Script α)

namespace Script

variable {α β : Type}

/-- The parser that does the reads. -/
def run : Script α → Parser α
  | done a => pure a
  | refused reason => refuse reason
  | code next => onSource Source.byte >>= fun b => (next b).run
  | block count next => onSource (Source.upTo count) >>= fun bytes => (next bytes).run
  | int next => Binary.int >>= fun v => (next v).run

/-- The reads of the second script follow those of the first one. -/
def bind : Script α → (α → Script β) → Script β
  | done a, f => f a
  | refused reason, _ => refused reason
  | code next, f => code fun b => (next b).bind f
  | block count next, f => block count fun bytes => (next bytes).bind f
  | int next, f => int fun v => (next v).bind f

theorem run_bind (x : Script α) (f : α → Script β) :
    (x.bind f).run = x.run >>= fun a => (f a).run := by
  induction x with
  | done a => rfl
  | refused reason => rfl
  | code next ih => simp only [bind, run, ih, bind_assoc]
  | block count next ih => simp only [bind, run, ih, bind_assoc]
  | int next ih => simp only [bind, run, ih, bind_assoc]

end Script

/-! ## The scripts of the parser -/

/-- The script whose reads the parser does. -/
structure Scripted {α : Type} (act : Parser α) where
  script : Script α
  run_eq : script.run = act

namespace Scripted

variable {α β : Type} {act : Parser α} {next : α → Parser β}

def pure (a : α) : Scripted (Pure.pure a : Parser α) := ⟨.done a, rfl⟩

def refuse (reason : Malformation) : Scripted (Binary.refuse reason : Parser α) :=
  ⟨.refused reason, rfl⟩

def bind (h : Scripted act) (hnext : ∀ a, Scripted (next a)) : Scripted (act >>= next) where
  script := h.script.bind fun a => (hnext a).script
  run_eq := by simp only [Script.run_bind, h.run_eq, fun a => (hnext a).run_eq]

def ite (p : Prop) [Decidable p] {other : Parser α} (h : Scripted act) (h' : Scripted other) :
    Scripted (if p then act else other) where
  script := if p then h.script else h'.script
  run_eq := by
    split
    · exact h.run_eq
    · exact h'.run_eq

def code : Scripted (onSource Source.byte) := ⟨.code .done, bind_pure _⟩

def block (count : Nat) : Scripted (onSource (Source.upTo count)) :=
  ⟨.block count .done, bind_pure _⟩

def int : Scripted Binary.int := ⟨.int .done, bind_pure _⟩

def require (reason : Malformation) : (a? : Option α) → Scripted (Binary.require reason a?)
  | some a => pure a
  | none => refuse reason

def ofExcept : (x : Except Malformation α) → Scripted (Binary.ofExcept x)
  | .ok a => pure a
  | .error reason => refuse reason

def length : Scripted Binary.length := int.bind fun _ => ite _ (refuse _) (pure _)

def term : Scripted Binary.term :=
  int.bind fun _ => int.bind fun _ => (require _ _).bind fun _ => pure _

def hint : Scripted Binary.hint := int.bind fun _ => require _ _

def repeated {item : Parser α} (h : Scripted item) :
    (count : Nat) → Scripted (Binary.repeated item count)
  | 0 => pure []
  | count + 1 => h.bind fun _ => (repeated h count).bind fun _ => pure _

def step (kind : StepKind) : Scripted (Binary.step kind) :=
  code.bind fun _ => (require _ _).bind fun _ => length.bind fun _ =>
    (term.repeated _).bind fun _ => int.bind fun _ => length.bind fun _ =>
    (hint.repeated _).bind fun _ => ofExcept _

def comment : Scripted Binary.comment :=
  length.bind fun count => (block count).bind fun _ =>
    ite _ (refuse _) ((require _ _).bind fun _ => pure _)

def entry (code : UInt8) : Scripted (Binary.entry code) :=
  ite _ comment
    (match StepKind.ofCode? code with
    | some kind => step kind
    | none => refuse _)

end Scripted

/-! ## One read -/

variable {s t : Source}

theorem onSource_ne_varint {α : Type} {act : EStateM Fault Source α} {e : Varint.Error} :
    onSource act s ≠ .error (.varint e) t := by
  intro h
  unfold onSource EStateM.adaptExcept at h
  split at h <;> cases h

theorem advancing_onSource {α : Type} {act : EStateM Fault Source α} (h : Advancing act) :
    Advancing (onSource act) := .adaptExcept _ h

/-- A defect is one of the integer that is read. -/
theorem read?_of_int_varint {e : Varint.Error} (h : Binary.int s = .error (.varint e) t) :
    read? s = .error (.malformed e) t := by
  cases hread : read? s with
  | ok v? u =>
    have hact : EStateM.adaptExcept Failure.ofStreamError read? s = .ok v? u := by
      simp only [EStateM.adaptExcept, hread]
    have hrun := (bind_of_ok hact).symm.trans h
    cases v? <;> cases hrun
  | error e' u =>
    have hact : EStateM.adaptExcept Failure.ofStreamError read? s =
        .error (.ofStreamError e') u := by
      simp only [EStateM.adaptExcept, hread]
    have hrun := (bind_of_error hact).symm.trans h
    cases e' <;> cases hrun
    rfl

theorem length_rest_of_int {v : Int64} (h : Binary.int s = .ok v t) :
    t.rest.length + 1 ≤ s.rest.length := by
  have hpos : 0 < (encode v).length := List.length_pos_iff.mpr (encode_ne_nil v)
  rw [reads_int _ _ _ h, List.length_append]
  omega

namespace Script

variable {α β : Type}

/-! ## The integer to blame -/

/-- The error is about an integer that is read behind some more bytes, and nothing behind this
integer is read. -/
def Blames (e : Varint.Error) (s t : Source) : Prop :=
  ∃ u, s.Advances u ∧ read? u = .error (.malformed e) t

theorem blames_of_bind {act : Parser β} {next : β → Parser α} {e : Varint.Error}
    (hact : Advancing act) (h : (act >>= next) s = .error (.varint e) t)
    (herror : act s = .error (.varint e) t → Blames e s t)
    (hnext : ∀ b s', next b s' = .error (.varint e) t → Blames e s' t) : Blames e s t := by
  cases hread : act s with
  | ok b s' =>
    rw [bind_of_ok hread] at h
    obtain ⟨u, hu, hblame⟩ := hnext b s' h
    exact ⟨u, (hact.ok hread).trans hu, hblame⟩
  | error e' s' =>
    rw [bind_of_error hread] at h
    cases h
    exact herror hread

/-- A defect is one of an integer that the parser reads, and the last thing that it reads. -/
theorem blames_of_varint (x : Script α) {e : Varint.Error}
    (h : x.run s = .error (.varint e) t) : Blames e s t := by
  induction x generalizing s with
  | done a => cases h
  | refused reason => cases h
  | code next ih =>
    exact blames_of_bind (advancing_onSource advancing_byte) h
      (fun herror => absurd herror onSource_ne_varint) fun b s' => ih b
  | block count next ih =>
    exact blames_of_bind (advancing_onSource (advancing_upTo count)) h
      (fun herror => absurd herror onSource_ne_varint) fun bytes s' => ih bytes
  | int next ih =>
    exact blames_of_bind advancing_int h
      (fun herror => ⟨s, .refl s, read?_of_int_varint herror⟩) fun v s' => ih v

/-! ## The number of integers -/

/-- What is counted behind a read that succeeds. -/
def countBehind (result : EStateM.Result Failure Source β) (count : β → Source → Nat) : Nat :=
  match result with
  | .ok b s => count b s
  | .error _ _ => 0

/-- How often the parser begins to read an integer. -/
def integerReads : Script α → Source → Nat
  | done _, _ => 0
  | refused _, _ => 0
  | code next, s => countBehind (onSource Source.byte s) fun b => (next b).integerReads
  | block count next, s =>
    countBehind (onSource (Source.upTo count) s) fun bytes => (next bytes).integerReads
  | int next, s => 1 + countBehind (Binary.int s) fun v => (next v).integerReads

/-- There are no more reads than bytes that were taken, and the one that failed. -/
def PaidFor (reads : Nat) (s : Source) : EStateM.Result Failure Source α → Prop
  | .ok _ t => reads + t.rest.length ≤ s.rest.length
  | .error _ t => reads + t.rest.length ≤ s.rest.length + 1

theorem PaidFor.add_le {reads : Nat} {result : EStateM.Result Failure Source α}
    (h : PaidFor reads s result) :
    reads + (stateAfter result).rest.length ≤ s.rest.length + 1 := by
  cases result with
  | ok a t => exact Nat.le_succ_of_le h
  | error e t => exact h

/-- A read that takes a byte for its price when it succeeds. -/
theorem paidFor_bind {act : Parser β} {next : β → Parser α} {count : β → Source → Nat}
    {price : Nat} (hprice : price ≤ 1) (hact : Advancing act)
    (htakes : ∀ b t, act s = .ok b t → t.rest.length + price ≤ s.rest.length)
    (h : ∀ b t, PaidFor (count b t) t (next b t)) :
    PaidFor (price + countBehind (act s) count) s ((act >>= next) s) := by
  cases hread : act s with
  | ok b t =>
    have hle := htakes b t hread
    have hpaid := h b t
    rw [bind_of_ok hread, countBehind]
    cases hnext : next b t <;> rw [hnext] at hpaid <;> simp only [PaidFor] at hpaid ⊢ <;> omega
  | error e t =>
    have hle := (hact.error hread).length_le
    rw [bind_of_error hread, countBehind, PaidFor]
    omega

theorem paidFor (x : Script α) (s : Source) : PaidFor (x.integerReads s) s (x.run s) := by
  induction x generalizing s with
  | done a => exact Nat.le_of_eq (Nat.zero_add _)
  | refused reason => exact Nat.le_succ_of_le (Nat.le_of_eq (Nat.zero_add _))
  | code next ih =>
    have hact := advancing_onSource advancing_byte
    rw [integerReads, ← Nat.zero_add (countBehind _ _)]
    exact paidFor_bind (Nat.zero_le 1) hact (fun b t h => (hact.ok h).length_le) ih
  | block count next ih =>
    have hact := advancing_onSource (advancing_upTo count)
    rw [integerReads, ← Nat.zero_add (countBehind _ _)]
    exact paidFor_bind (Nat.zero_le 1) hact (fun b t h => (hact.ok h).length_le) ih
  | int next ih =>
    exact paidFor_bind (Nat.le_refl 1) advancing_int (fun v t => length_rest_of_int) ih

end Script

end CuttingPlanes.Trace.Binary
