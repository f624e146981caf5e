import ShapeLines.Line.Writer
import ShapeLines.Proofs.Text.Joined
import ShapeLines.Proofs.Text.Runs

/-!
# What a writer has written

A writer holds the text that it has written and knows whether a line is open. The text that it
finishes with depends on the calls in a simple way: the calls between line ends are the pairs of one
line, joined by commas, and the lines are joined by line feeds. Line ends without pairs between them
count once, and those at the start and at the end do not count.
-/

namespace ShapeLines

/-- Lines that each end in a line feed are the joined lines and one line feed more. -/
theorem Text.flatMap_feed {ls : List (List Char)} (ne : ls ≠ []) :
    ls.flatMap (· ++ ['\n']) = List.intercalate ['\n'] ls ++ ['\n'] := by
  induction ls with
  | nil => exact (ne rfl).elim
  | cons s ls ih =>
    cases ls with
    | nil => simp
    | cons t ls =>
      rw [List.flatMap_cons, ih (by simp), List.intercalate_cons_cons]
      simp only [List.append_assoc]

namespace LineWriter

variable {w : LineWriter} {calls : List Call}

/-- What a call puts on its line. -/
def Call.text : Call → String
  | .pair key value => if value = "true" then key else key ++ "=" ++ escaped value
  | .literal key text => key ++ "=" ++ text
  | .endLine => ""

def Call.isEnd (c : Call) : Bool :=
  c = .endLine

def lineText (calls : List Call) : String :=
  ",".intercalate (calls.map Call.text)

/-- The lines that calls write, one for the calls between two line ends if there are any. -/
def linesOf (calls : List Call) : List String :=
  (Text.runs Call.isEnd calls).map lineText

theorem run_append (w : LineWriter) (calls more : List Call) :
    w.run (calls ++ more) = (w.run calls).run more :=
  List.foldl_append

/-! ## One line -/

theorem call_of_not_end {c : Call} (pair : c.isEnd = false) : w.call c = w.put c.text := by
  cases c with
  | pair key value => rfl
  | literal key text => rfl
  | endLine => contradiction

theorem put_put (w : LineWriter) (a b : String) : (w.put a).put b = w.put (a ++ "," ++ b) := by
  simp [put, String.append_assoc]

/-- Pairs that are put on a line one by one are put there as one text. -/
theorem run_pairs (ne : calls ≠ []) (pairs : ∀ c ∈ calls, c.isEnd = false) :
    w.run calls = w.put (lineText calls) := by
  induction calls generalizing w with
  | nil => contradiction
  | cons c calls ih =>
    obtain ⟨first, others⟩ := List.forall_mem_cons.mp pairs
    have start : w.run (c :: calls) = (w.put c.text).run calls := by
      rw [← call_of_not_end first]
      rfl
    rw [start]
    cases calls with
    | nil => rw [lineText, List.map_singleton, String.intercalate_singleton]; rfl
    | cons d calls =>
      rw [ih (by simp) others, put_put, lineText, lineText, List.map_cons, List.map_cons,
        List.map_cons, String.intercalate_cons_cons]

/-! ## Line ends -/

theorem lineOpen_endLine (w : LineWriter) : w.endLine.lineOpen = false := by
  unfold endLine
  split
  · rfl
  · next closed => simpa using closed

theorem endLine_of_closed (closed : w.lineOpen = false) : w.endLine = w := by
  rw [endLine, if_neg (by simp [closed])]

/-- The end of a line that holds something adds a line feed. -/
theorem toList_endLine_put (closed : w.lineOpen = false) (line : String) :
    (w.put line).endLine.text.toList = w.text.toList ++ (line.toList ++ ['\n']) := by
  simp [put, endLine, closed]

/-- Where a line has to end anyway, it may be ended before. -/
theorem endLine_run_endLine (stop : ∀ c ∈ calls.head?, c.isEnd = true) :
    (w.endLine.run calls).endLine = (w.run calls).endLine := by
  cases calls with
  | nil => exact endLine_of_closed (lineOpen_endLine w)
  | cons c calls =>
    obtain rfl : c = .endLine := of_decide_eq_true (stop c rfl)
    show (w.endLine.endLine.run calls).endLine = (w.endLine.run calls).endLine
    rw [endLine_of_closed (lineOpen_endLine w)]

/-- From a closed line on, calls write their lines, each with a line feed at its end. -/
theorem toList_endLine_run (closed : w.lineOpen = false) (calls : List Call) :
    (w.run calls).endLine.text.toList =
      w.text.toList ++ ((linesOf calls).map String.toList).flatMap (· ++ ['\n']) := by
  unfold linesOf
  -- the writer stands between two lines wherever the calls are taken up again
  induction calls using Text.runInduction Call.isEnd generalizing w with
  | nil =>
    show w.endLine.text.toList = _
    rw [endLine_of_closed closed]
    simp [Text.runs]
  | cons c calls isEnd ih =>
    obtain rfl : c = .endLine := of_decide_eq_true isEnd
    show (w.endLine.run calls).endLine.text.toList = _
    rw [endLine_of_closed closed, ih closed, Text.runs_cons isEnd]
  | append line calls ne pairs stop ih =>
    rw [run_append, run_pairs ne pairs, ← endLine_run_endLine stop, ih (lineOpen_endLine _),
      toList_endLine_put closed, Text.runs_append ne pairs stop]
    simp

/-! ## The finished text -/

theorem withoutLastFeed_concat (s : List Char) : withoutLastFeed (s ++ ['\n']) = s := by
  induction s with
  | nil => rfl
  | cons c s ih =>
    have step : withoutLastFeed (c :: (s ++ ['\n'])) = c :: withoutLastFeed (s ++ ['\n']) := by
      rw [withoutLastFeed.eq_3]
      simp
    rw [List.cons_append, step, ih]

theorem finish_run_eq (calls : List Call) :
    (run {} calls).finish = "\n".intercalate (linesOf calls) := by
  have written : (run {} calls).endLine.text.toList =
      ((linesOf calls).map String.toList).flatMap (· ++ ['\n']) := toList_endLine_run rfl calls
  apply String.toList_inj.mp
  rw [finish, String.toList_ofList, String.toList_intercalate, written]
  by_cases none : linesOf calls = []
  · rw [none]
    rfl
  · rw [Text.flatMap_feed (by simpa using none), withoutLastFeed_concat]
    rfl

theorem linesOf_append_endLine (calls more : List Call) :
    linesOf (calls ++ .endLine :: more) = linesOf calls ++ linesOf more := by
  rw [linesOf, Text.runs_append_gap rfl, List.map_append]
  rfl

/-- A writer finishes with the lines of its calls, joined by line feeds. A line end at the start, at
the end or right behind another changes nothing. -/
theorem finish_run (calls : List Call) :
    (run {} calls).finish = "\n".intercalate (linesOf calls) ∧
      (run {} (.endLine :: calls)).finish = (run {} calls).finish ∧
      (run {} (calls ++ [.endLine])).finish = (run {} calls).finish ∧
      ∀ more, (run {} (calls ++ .endLine :: .endLine :: more)).finish =
        (run {} (calls ++ .endLine :: more)).finish := by
  have none : linesOf [] = [] := rfl
  have leading (more : List Call) : linesOf (.endLine :: more) = linesOf more :=
    linesOf_append_endLine [] more
  refine ⟨finish_run_eq calls, ?_, ?_, fun more => ?_⟩
  · rw [finish_run_eq, finish_run_eq, leading]
  · rw [finish_run_eq, finish_run_eq, linesOf_append_endLine, none, List.append_nil]
  · rw [finish_run_eq, finish_run_eq, linesOf_append_endLine, leading, linesOf_append_endLine]

/-- Pairs may be empty and may end in a line feed. -/
example : (run {} [.endLine, .pair "a" "true", .pair "b" "x,y", .endLine, .endLine,
    .pair "" "true", .endLine, .literal "" "\n", .endLine]).finish = "a,b=x\\,y\n\n=\n" := by
  decide

end LineWriter

end ShapeLines
