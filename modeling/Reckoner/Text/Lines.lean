namespace Reckoner.Text

/-!
# Lines

A feed ends a line, so there is none after the last feed. The same rule splits characters and
bytes; joining the lines with a feed after each gives the input back, up to a missing last feed.
-/

variable {α : Type} [DecidableEq α]

/-- The lines of a sequence, without the feeds that end them. -/
def lines (feed : α) : List α → List (List α)
  | [] => []
  | a :: as =>
    if a = feed then [] :: lines feed as
    else
      match lines feed as with
      | [] => [[a]]
      | line :: more => (a :: line) :: more

/-- No line holds a feed. -/
theorem feed_not_mem_of_mem_lines {feed : α} {as line : List α} (h : line ∈ lines feed as) :
    feed ∉ line := by
  induction as generalizing line with
  | nil => simp [lines] at h
  | cons a as ih =>
    rw [lines] at h
    split at h
    · rcases List.mem_cons.1 h with rfl | h
      · simp
      · exact ih h
    · next hne =>
      split at h
      · simp only [List.mem_singleton] at h
        simpa [h] using Ne.symm hne
      · next line' more heq =>
        rcases List.mem_cons.1 h with rfl | h
        · simpa [Ne.symm hne] using ih (heq ▸ List.mem_cons_self)
        · exact ih (heq ▸ List.mem_cons_of_mem _ h)

/-- A line with its feed, and the lines of the rest. -/
theorem lines_append_feed {feed : α} {line : List α} (h : feed ∉ line) (as : List α) :
    lines feed (line ++ feed :: as) = line :: lines feed as := by
  induction line with
  | nil => simp [lines]
  | cons a line ih =>
    simp only [List.mem_cons, not_or] at h
    simp [lines, Ne.symm h.1, ih h.2]

/-- **A text and its lines.**  A feed ends each line; it may be missing after the last one, unless
    that is empty. -/
inductive Lined (feed : α) : List α → List (List α) → Prop where
  | nil : Lined feed [] []
  | last {line : List α} (nonempty : line ≠ []) (unfed : feed ∉ line) : Lined feed line [line]
  | cons {line as : List α} {ls : List (List α)} (unfed : feed ∉ line) (later : Lined feed as ls) :
      Lined feed (line ++ feed :: as) (line :: ls)

/-- A last line without a feed. -/
theorem lines_of_not_mem {feed : α} {line : List α} (hne : line ≠ []) (h : feed ∉ line) :
    lines feed line = [line] := by
  induction line with
  | nil => exact absurd rfl hne
  | cons a line ih =>
    simp only [List.mem_cons, not_or] at h
    rw [lines, if_neg (Ne.symm h.1)]
    cases line with
    | nil => rfl
    | cons b line => rw [ih (List.cons_ne_nil b line) h.2]

/-- **The lines of a text are those that it is made of.** -/
theorem lines_of_lined {feed : α} {as : List α} {ls : List (List α)} (h : Lined feed as ls) :
    lines feed as = ls := by
  induction h with
  | nil => rfl
  | last nonempty unfed => exact lines_of_not_mem nonempty unfed
  | cons unfed later ih => rw [lines_append_feed unfed, ih]

/-- **Every text is made of its lines.** -/
theorem lined_lines (feed : α) (as : List α) : Lined feed as (lines feed as) := by
  induction as with
  | nil => exact .nil
  | cons a as ih =>
    rw [lines]
    split
    · next ha =>
      subst ha
      exact .cons List.not_mem_nil ih
    · next ha =>
      -- The first character goes to the first line of the rest, if there is one.
      generalize lines feed as = ls at ih
      cases ih with
      | nil => exact .last (List.cons_ne_nil a []) (by simpa [eq_comm] using ha)
      | last nonempty unfed => exact .last (List.cons_ne_nil a as) (by simp [Ne.symm ha, unfed])
      | @cons line as ls unfed later =>
        rw [← List.cons_append]
        exact .cons (by simp [Ne.symm ha, unfed]) later

example : lines 0 [1, 2, 0, 0, 3] = [[1, 2], [], [3]] ∧ lines 0 [1, 0] = [[1]] := by decide

end Reckoner.Text
