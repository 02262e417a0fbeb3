/-!
# The lines of a text

A line ends at a line feed, and one carriage return right before the line feed
belongs to the end. The last line needs no end, so an empty text has no line.
-/

namespace CuttingPlanes.Text

/-- The lines of a text without their ends. -/
def lines : List Char → List (List Char)
  | [] => []
  | '\n' :: cs => [] :: lines cs
  | '\r' :: '\n' :: cs => [] :: lines cs
  | c :: cs =>
    match lines cs with
    | [] => [[c]]
    | l :: ls => (c :: l) :: ls

/-- A line without the carriage returns at its end. -/
def dropReturns (cs : List Char) : List Char :=
  (cs.reverse.dropWhile (· == '\r')).reverse

/-- No line holds a line feed, so every line stays a line when it is written. -/
theorem lf_notMem_of_mem_lines {cs l : List Char} (h : l ∈ lines cs) : '\n' ∉ l := by
  fun_induction lines cs generalizing l with
  | case1 => simp at h
  | case2 cs ih =>
    rcases List.mem_cons.mp h with rfl | h
    · simp
    · exact ih h
  | case3 cs ih =>
    rcases List.mem_cons.mp h with rfl | h
    · simp
    · exact ih h
  | case4 c cs hc _ heq ih =>
    simp only [List.mem_singleton] at h
    subst h
    simpa using fun hn => hc hn.symm
  | case5 c cs hc _ first rest heq ih =>
    rcases List.mem_cons.mp h with rfl | h
    · have := ih (l := first) (by simp [heq])
      simpa [this] using fun hn => hc hn.symm
    · exact ih (by simp [heq, h])

end CuttingPlanes.Text
