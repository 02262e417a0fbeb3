import CuttingPlanes.Stream.Fault

/-!
# Sources of bytes

A source delivers bytes in order and then either ends or fails with every
further read. A read that fails has lost what it took before the failure. The
reads of this module never give bytes back: what is left afterwards is a tail of
what was left before, and it is shorter when something was delivered.

Whoever reads counts the bytes. A source does not know how many it has delivered;
the counter belongs to the reader, and stands beside the bytes because every read
changes both.
-/

namespace CuttingPlanes

/-- The bytes still to be delivered, the counter of the reader, and the fault of
reading past the bytes, if there is one. The counter `position` starts where the
reader has set it, and each read of this module moves it on by the bytes that the
read takes; the offsets of integers are taken from it. No reader of lines looks at it. -/
structure Source where
  rest : List UInt8
  position : Nat
  failure : Option Fault
deriving DecidableEq, Repr

namespace Source

/-- A source that delivers all bytes and then ends. -/
def ofBytes (bytes : List UInt8) : Source := ⟨bytes, 0, none⟩

/-- A source that delivers at most `count` of the bytes and then fails. -/
def failingAfter (count : Nat) (fault : Fault) (bytes : List UInt8) : Source :=
  ⟨bytes.take count, 0, some fault⟩

/-- The source after all its bytes. -/
def exhausted (s : Source) : Source := { s with rest := [], position := s.position + s.rest.length }

/-- The answer of a read that finds the source without a further byte. -/
def atEnd {α : Type} (a : α) : EStateM Fault Source α := fun s =>
  match s.failure with
  | none => .ok a s.exhausted
  | some fault => .error fault s.exhausted

/-- The next byte, or nothing at the end. -/
def byte? : EStateM Fault Source (Option UInt8) := fun s =>
  match s.rest with
  | [] => atEnd none s
  | b :: rest => .ok (some b) { s with rest, position := s.position + 1 }

/-- The next byte, which has to be there. -/
def byte : EStateM Fault Source UInt8 := do
  match ← byte? with
  | some b => return b
  | none => throw .endedEarly

/-- The next `count` bytes, or all bytes if the source ends before. -/
def upTo (count : Nat) : EStateM Fault Source (List UInt8) := fun s =>
  let taken := s.rest.take count
  if taken.length = count then
    .ok taken { s with rest := s.rest.drop count, position := s.position + count }
  else atEnd taken s

/-- The next line without its line feed, or nothing at the end. The last line
needs no line feed. -/
def line? : EStateM Fault Source (Option (List UInt8)) := fun s =>
  let line := s.rest.takeWhile (· != 10)
  match s.rest.dropWhile (· != 10) with
  | _ :: rest => .ok (some line) { s with rest, position := s.position + line.length + 1 }
  | [] => atEnd (if line.isEmpty then none else some line) s

/-! ## Progress -/

/-- The second source is the first one after some of its bytes. -/
def Advances (s s' : Source) : Prop :=
  ∃ taken, s.rest = taken ++ s'.rest ∧ s'.position = s.position + taken.length ∧
    s'.failure = s.failure

theorem Advances.refl (s : Source) : Advances s s := ⟨[], by simp⟩

theorem Advances.trans {s t u : Source} (h : Advances s t) (h' : Advances t u) : Advances s u := by
  obtain ⟨xs, hr, hp, hf⟩ := h
  obtain ⟨ys, hr', hp', hf'⟩ := h'
  exact ⟨xs ++ ys, by simp [hr, hr'], by rw [hp', hp, List.length_append]; omega, hf'.trans hf⟩

theorem Advances.length_le {s s' : Source} (h : Advances s s') : s'.rest.length ≤ s.rest.length := by
  obtain ⟨taken, hr, _⟩ := h
  rw [hr, List.length_append]
  omega

/-- There is nothing behind the end. -/
theorem Advances.rest_eq_nil {s s' : Source} (h : Advances s s') (hnil : s.rest = []) :
    s'.rest = [] := by
  obtain ⟨taken, hr, _⟩ := h
  rw [hnil] at hr
  exact (List.append_eq_nil_iff.mp hr.symm).2

theorem Advances.failure_eq {s s' : Source} (h : Advances s s') : s'.failure = s.failure := by
  obtain ⟨_, _, _, hf⟩ := h
  exact hf

theorem advances_exhausted (s : Source) : Advances s s.exhausted :=
  ⟨s.rest, by simp [exhausted], rfl, rfl⟩

/-- The state that an action leaves, whether it succeeds or not. -/
def stateAfter {ε σ α : Type} : EStateM.Result ε σ α → σ
  | .ok _ s => s
  | .error _ s => s

/-- However the action ends, the source has only gone on. -/
def Advancing {ε α : Type} (act : EStateM ε Source α) : Prop := ∀ s, Advances s (stateAfter (act s))

namespace Advancing

variable {ε ε' α β : Type}

theorem pure (a : α) : Advancing (Pure.pure a : EStateM ε Source α) := fun s => .refl s

theorem throw (e : ε) : Advancing (MonadExcept.throw e : EStateM ε Source α) := fun s => .refl s

theorem bind {act : EStateM ε Source α} {next : α → EStateM ε Source β} (h : Advancing act)
    (h' : ∀ a, Advancing (next a)) : Advancing (act >>= next) := by
  intro s
  have hs := h s
  show Advances s (stateAfter (EStateM.bind act next s))
  unfold EStateM.bind
  split
  · rename_i a t heq
    rw [heq] at hs
    exact hs.trans (h' a t)
  · rename_i e t heq
    rw [heq] at hs
    exact hs

theorem adaptExcept {act : EStateM ε Source α} (f : ε → ε') (h : Advancing act) :
    Advancing (EStateM.adaptExcept f act) := by
  intro s
  have hs := h s
  unfold EStateM.adaptExcept
  split <;> rename_i heq <;> rw [heq] at hs <;> exact hs

theorem ok {act : EStateM ε Source α} (h : Advancing act) {s s' : Source} {a : α}
    (hok : act s = .ok a s') : Advances s s' := by
  have := h s
  rwa [hok] at this

theorem error {act : EStateM ε Source α} (h : Advancing act) {s s' : Source} {e : ε}
    (herr : act s = .error e s') : Advances s s' := by
  have := h s
  rwa [herr] at this

end Advancing

theorem advancing_atEnd {α : Type} (a : α) : Advancing (atEnd a) := by
  intro s
  unfold atEnd
  split <;> exact advances_exhausted s

theorem advancing_byte? : Advancing byte? := by
  intro s
  unfold byte?
  split
  · exact advancing_atEnd none s
  · rename_i b rest heq
    exact ⟨[b], by simp [heq, stateAfter], rfl, rfl⟩

theorem advancing_byte : Advancing byte :=
  .bind advancing_byte? fun b => match b with
    | some b => .pure b
    | none => .throw _

theorem advancing_upTo (count : Nat) : Advancing (upTo count) := by
  intro s
  unfold upTo
  dsimp only
  split
  · rename_i h
    exact ⟨s.rest.take count, by simp [stateAfter], by rw [h]; rfl, rfl⟩
  · exact advancing_atEnd _ s

theorem advancing_line? : Advancing line? := by
  intro s
  have happ := List.takeWhile_append_dropWhile (p := (· != 10)) (l := s.rest)
  unfold line?
  dsimp only
  split
  · rename_i c rest heq
    refine ⟨s.rest.takeWhile (· != 10) ++ [c], ?_, ?_, rfl⟩
    · rw [heq] at happ
      simpa [stateAfter] using happ.symm
    · simp [stateAfter]
      omega
  · exact advancing_atEnd _ s

theorem length_rest_of_byte?_some {s s' : Source} {b : UInt8} (h : byte? s = .ok (some b) s') :
    s'.rest.length < s.rest.length := by
  unfold byte? at h
  split at h
  · unfold atEnd at h
    split at h <;> simp at h
  · rename_i heq
    cases h
    simp [heq]

theorem length_rest_of_line?_some {s s' : Source} {line : List UInt8}
    (h : line? s = .ok (some line) s') : s'.rest.length < s.rest.length := by
  have hle : (s.rest.dropWhile (· != 10)).length ≤ s.rest.length :=
    (List.dropWhile_sublist _).length_le
  unfold line? at h
  simp only at h
  split at h
  · rename_i heq
    cases h
    rw [heq, List.length_cons] at hle
    exact hle
  · unfold atEnd at h
    split at h
    · simp only [EStateM.Result.ok.injEq] at h
      obtain ⟨hl, rfl⟩ := h
      cases hs : s.rest with
      | nil => simp [hs] at hl
      | cons => simp [exhausted]
    · simp at h

end Source

end CuttingPlanes
