import CondResolve.Writer

/-!
# Closing up blank lines

Where lines are left out between blank lines, a writer that closes them up writes only as many blank lines as the
longest of the runs has. Of its counters one is as high as the current run, and the other one as the number of blank
lines written since the last line that was not blank (`blankMax_add_emitted`). `blanks_closed_up` puts the output of
such a writer in closed form.
-/

namespace CondResolve

/-! ## Lines that are offered to the writer -/

/-- A line that the writer is told to keep or to drop. -/
structure Offer where
  newline : Newline
  number : Nat
  keep : Bool
  line : Chars

namespace Offer

variable (s : Settings)

def selected (o : Offer) : Bool := o.keep != s.complement

def flush (w : Writer) (o : Offer) : Writer × Chars := w.flush s o.newline o.number o.keep o.line

def emits (w : Writer) (o : Offer) : Bool := (o.flush s w).1.dropped = 0

end Offer

def Writer.after (s : Settings) (w : Writer) (os : List Offer) : Writer := os.foldl (fun w o => (o.flush s w).1) w

def Writer.emitted (s : Settings) (w : Writer) : List Offer → List Offer
  | [] => []
  | o :: os =>
    if o.emits s w then o :: (o.flush s w).1.emitted s os else (o.flush s w).1.emitted s os

/-- How many lines are selected in a row, before, between and behind those that are not. -/
def runs (s : Settings) (os : List Offer) : List Nat := (os.splitOnP fun o => !o.selected s).map (·.length)

section
variable {s : Settings} {w : Writer} {o : Offer} {os : List Offer}

theorem after_append (xs ys : List Offer) : w.after s (xs ++ ys) = (w.after s xs).after s ys := List.foldl_append

/-! ## One line -/

section
variable (hl : s.listing = false)
include hl

theorem flush_of_unselected (hs : o.selected s = false) : o.flush s w = w.drop s o.newline := by
  have hs : (o.keep != s.complement) = false := hs
  simp [Offer.flush, Writer.flush, hl, hs]

theorem flush_of_selected (hs : o.selected s = true) (hw : isBlank o.line = true → w.blanks = w.blankMax) :
    o.flush s w = w.write s o.newline o.number o.line := by
  have hs : (o.keep != s.complement) = true := hs
  cases hb : isBlank o.line with
  | false => simp [Offer.flush, Writer.flush, hl, hs, hb]
  | true => simp [Offer.flush, Writer.flush, hl, hs, hb, hw hb]

theorem emitted_unselected (hs : o.selected s = false) :
    w.emitted s (o :: os) = (w.drop s o.newline).1.emitted s os := by
  rw [Writer.emitted, Offer.emits, flush_of_unselected hl hs]
  simp [Writer.drop]

theorem emitted_selected (hs : o.selected s = true) (hw : isBlank o.line = true → w.blanks = w.blankMax) :
    w.emitted s (o :: os) = o :: (w.write s o.newline o.number o.line).1.emitted s os := by
  rw [Writer.emitted, Offer.emits, flush_of_selected hl hs hw]
  simp [Writer.write]

section
variable (hc : s.compressBlanks = true)
include hc

theorem flush_of_blank (hs : o.selected s = true) (hb : isBlank o.line = true) (hw : w.blanks ≠ w.blankMax) :
    o.flush s w = (w.absorb, []) := by
  have hs : (o.keep != s.complement) = true := hs
  simp [Offer.flush, Writer.flush, hl, hs, hb, hc, hw]

theorem emitted_blank (hs : o.selected s = true) (hb : isBlank o.line = true) (hw : w.blanks ≠ w.blankMax) :
    w.emitted s (o :: os) = w.absorb.emitted s os := by
  rw [Writer.emitted, Offer.emits, flush_of_blank hl hc hs hb hw]
  simp [Writer.absorb]

/-- A line that is written is selected and stands in the output, behind a marker if there has to be one. Of any
other line nothing is there. -/
theorem flush_cases (hp : s.blankPlaceholders = false) (w : Writer) (o : Offer) :
    o.emits s w = true ∧ o.selected s = true ∧ (o.flush s w).2 =
        (if s.lineMarkers && 0 < w.dropped then lineMarker s o.newline o.number else []) ++ o.line ∨
      o.emits s w = false ∧ (o.flush s w).2 = [] := by
  unfold Offer.emits
  cases hs : o.selected s with
  | false =>
    rw [flush_of_unselected hl hs]
    simp [Writer.drop, hp]
  | true =>
    by_cases hw : isBlank o.line = true → w.blanks = w.blankMax
    · rw [flush_of_selected hl hs hw]
      simp [Writer.write]
    · have ⟨hb, hne⟩ : isBlank o.line = true ∧ w.blanks ≠ w.blankMax := by simpa using hw
      rw [flush_of_blank hl hc hs hb hne]
      simp [Writer.absorb]

theorem filter_emitted (w : Writer) (os : List Offer) :
    (w.emitted s os).filter (fun o => !isBlank o.line) = os.filter fun o => o.selected s && !isBlank o.line := by
  induction os generalizing w with
  | nil => rfl
  | cons o os ih =>
    cases hs : o.selected s with
    | false =>
      rw [emitted_unselected hl hs, ih]
      simp [hs]
    | true =>
      by_cases hw : isBlank o.line = true → w.blanks = w.blankMax
      · rw [emitted_selected hl hs hw, List.filter_cons, List.filter_cons, ih, hs, Bool.true_and]
      · have ⟨hb, hne⟩ : isBlank o.line = true ∧ w.blanks ≠ w.blankMax := by simpa using hw
        rw [emitted_blank hl hc hs hb hne, ih]
        simp [hb]

theorem blank_of_emitted (ho : ∀ o ∈ os, o.selected s = true → isBlank o.line = true) :
    ∀ o ∈ w.emitted s os, isBlank o.line = true := by
  have htext := filter_emitted hl hc w os
  have hnone : os.filter (fun o => o.selected s && !isBlank o.line) = [] := by simpa using ho
  rw [hnone] at htext
  simpa using htext

end

end

/-! ## Runs of selected lines -/

theorem runs_selected (hs : o.selected s = true) (os : List Offer) :
    runs s (o :: os) = (runs s os).modifyHead (· + 1) := by
  rw [runs, runs, List.splitOnP_cons_eq_if_modifyHead]
  cases os.splitOnP fun o => !o.selected s <;> simp [hs]

theorem runs_unselected (hs : o.selected s = false) (os : List Offer) : runs s (o :: os) = 0 :: runs s os := by
  simp [runs, List.splitOnP_cons_eq_if_modifyHead, hs]

theorem runs_eq_cons (os : List Offer) : ∃ ns, runs s os = (os.takeWhile (·.selected s)).length :: ns := by
  induction os with
  | nil => exact ⟨[], rfl⟩
  | cons o os ih =>
    obtain ⟨ns, ih⟩ := ih
    cases hs : o.selected s with
    | false => exact ⟨runs s os, by simp [runs_unselected hs, hs]⟩
    | true => exact ⟨ns, by simp [runs_selected hs, ih, hs]⟩

def longest (s : Settings) (os : List Offer) : Nat := (runs s os).foldr max 0

theorem longest_selected (hs : o.selected s = true) (os : List Offer) :
    longest s (o :: os) = max ((os.takeWhile (·.selected s)).length + 1) (longest s os) := by
  obtain ⟨ns, hns⟩ := runs_eq_cons (s := s) os
  simp only [longest, runs_selected hs, hns, List.modifyHead_cons, List.foldr_cons]
  omega

theorem longest_unselected (hs : o.selected s = false) (os : List Offer) : longest s (o :: os) = longest s os := by
  simp [longest, runs_unselected hs]

theorem takeWhile_le_longest (os : List Offer) : (os.takeWhile (·.selected s)).length ≤ longest s os := by
  obtain ⟨ns, hns⟩ := runs_eq_cons (s := s) os
  rw [longest, hns]
  exact Nat.le_max_left ..

theorem longest_le_length (os : List Offer) : longest s os ≤ os.length := by
  induction os with
  | nil => simp [longest, runs]
  | cons o os ih =>
    rw [List.length_cons]
    cases hs : o.selected s with
    | false =>
      rw [longest_unselected hs]
      omega
    | true =>
      have htake := (List.takeWhile_sublist (l := os) fun o => o.selected s).length_le
      rw [longest_selected hs]
      omega

/-! ## Between two lines with text -/

section
variable (hl : s.listing = false) (hc : s.compressBlanks = true)
include hl hc

/-- As many blank lines have been written as the longest run so far has. A longer one adds what it is longer by. -/
theorem blankMax_add_emitted (hw : w.blanks ≤ w.blankMax)
    (ho : ∀ o ∈ os, o.selected s = true → isBlank o.line = true) :
    w.blankMax + (w.emitted s os).length =
      max w.blankMax (max (w.blanks + (os.takeWhile (·.selected s)).length) (longest s os)) := by
  induction os generalizing w with
  | nil =>
    simp [Writer.emitted, longest, runs]
    omega
  | cons o os ih =>
    have hos : ∀ x ∈ os, x.selected s = true → isBlank x.line = true := fun x hx => ho x (List.mem_cons_of_mem _ hx)
    have htake := takeWhile_le_longest (s := s) os
    rw [List.takeWhile_cons]
    cases hs : o.selected s with
    | false =>
      -- The run is over; the next one starts from nothing.
      have ih := ih (w := (w.drop s o.newline).1) (Nat.zero_le _) hos
      have hcount : (w.drop s o.newline).1.blanks = 0 ∧ (w.drop s o.newline).1.blankMax = w.blankMax := ⟨rfl, rfl⟩
      rw [emitted_unselected hl hs, longest_unselected hs]
      simp only [Bool.false_eq_true, if_false, List.length_nil]
      omega
    | true =>
      have hb := ho o (List.mem_cons_self ..) hs
      rw [longest_selected hs]
      simp only [if_true, List.length_cons]
      -- A line is written when the run is longer than all before it.
      by_cases he : w.blanks = w.blankMax
      · have hcount : (w.write s o.newline o.number o.line).1.blanks = w.blanks + 1 ∧
            (w.write s o.newline o.number o.line).1.blankMax = w.blanks + 1 := by simp [Writer.write, hb]
        have ih := ih (w := (w.write s o.newline o.number o.line).1) (by omega) hos
        rw [emitted_selected hl hs fun _ => he, List.length_cons]
        omega
      · have hcount : w.absorb.blanks = w.blanks + 1 ∧ w.absorb.blankMax = w.blankMax := ⟨rfl, rfl⟩
        have ih := ih (w := w.absorb) (by omega) hos
        rw [emitted_blank hl hc hs hb he]
        omega

theorem length_emitted_behind (hs : o.selected s = true) (hb : isBlank o.line = false)
    (ho : ∀ o ∈ os, o.selected s = true → isBlank o.line = true) :
    ((o.flush s w).1.emitted s os).length = longest s os := by
  have hcount : (o.flush s w).1.blanks = 0 ∧ (o.flush s w).1.blankMax = 0 := by
    rw [flush_of_selected hl hs (by simp [hb])]
    simp [Writer.write, hb]
  have hemitted := blankMax_add_emitted hl hc (w := (o.flush s w).1) (by omega) ho
  have htake := takeWhile_le_longest (s := s) os
  omega

/-- At the start no run is as long as what the text counts as preceded by. -/
theorem length_emitted_first (hn : os.length < manyBlanks)
    (ho : ∀ o ∈ os, o.selected s = true → isBlank o.line = true) :
    (({} : Writer).emitted s os).length = (os.takeWhile (·.selected s)).length := by
  have hcount : ({} : Writer).blanks = manyBlanks ∧ ({} : Writer).blankMax = manyBlanks := ⟨rfl, rfl⟩
  have hemitted := blankMax_add_emitted hl hc (w := {}) (by omega) ho
  have hlongest := longest_le_length (s := s) os
  omega

end

/-! ## Whole sequences of lines -/

/-- Blank lines are closed up: all lines with text that are selected are written, in their order, and behind each of
them as many blank lines as the longest run has that is selected up to the next one. Before the first of them only
the blank lines are written that nothing left out precedes. -/
theorem blanks_closed_up (s : Settings) (os : List Offer) (hc : s.compressBlanks = true)
    (hp : s.blankPlaceholders = false) (hl : s.listing = false) (hn : os.length < manyBlanks) :
    let w : Writer := {}
    (∀ before o rest, os = before ++ o :: rest →
      let w := w.after s before
      o.emits s w = true ∧ o.selected s = true ∧ (o.flush s w).2 =
          (if s.lineMarkers && 0 < w.dropped then lineMarker s o.newline o.number else []) ++ o.line ∨
        o.emits s w = false ∧ (o.flush s w).2 = []) ∧
    (w.emitted s os).filter (fun o => !isBlank o.line) = os.filter (fun o => o.selected s && !isBlank o.line) ∧
    (∀ before o stretch rest, os = before ++ o :: stretch ++ rest → o.selected s = true → isBlank o.line = false →
      (∀ x ∈ stretch, x.selected s = true → isBlank x.line = true) →
      let blanks := (w.after s (before ++ [o])).emitted s stretch
      (∀ x ∈ blanks, isBlank x.line = true) ∧ blanks.length = longest s stretch) ∧
    ∀ stretch rest, os = stretch ++ rest → (∀ x ∈ stretch, x.selected s = true → isBlank x.line = true) →
      let blanks := w.emitted s stretch
      (∀ x ∈ blanks, isBlank x.line = true) ∧ blanks.length = (stretch.takeWhile (·.selected s)).length := by
  refine ⟨fun before o _ _ => flush_cases hl hc hp _ o, filter_emitted hl hc _ os, ?_, ?_⟩
  · intro before o stretch rest _ hs hb hstretch
    refine ⟨blank_of_emitted hl hc hstretch, ?_⟩
    rw [after_append]
    exact length_emitted_behind hl hc hs hb hstretch
  · intro stretch rest he hstretch
    refine ⟨blank_of_emitted hl hc hstretch, length_emitted_first hl hc ?_ hstretch⟩
    rw [he, List.length_append] at hn
    omega

end

def threeRuns : List Offer :=
  [⟨.lf, 2, true, ['\n']⟩, ⟨.lf, 3, true, [' ', '\n']⟩, ⟨.lf, 4, false, ['x', '\n']⟩, ⟨.lf, 5, true, ['\n']⟩,
   ⟨.lf, 6, true, ['\n']⟩, ⟨.lf, 7, true, ['\n']⟩, ⟨.lf, 8, false, ['\n']⟩, ⟨.lf, 9, true, ['\n']⟩]

theorem blanks_closed_up_threeRuns :
    (((({} : Writer).after { compressBlanks := true } [⟨.lf, 1, true, ['a', '\n']⟩]).emitted
        { compressBlanks := true } threeRuns).length = longest { compressBlanks := true } threeRuns ∧
      longest { compressBlanks := true } threeRuns = 3) ∧
      (({} : Writer).emitted { compressBlanks := true } threeRuns).length = 2 := by
  have h := blanks_closed_up { compressBlanks := true } (⟨.lf, 1, true, ['a', '\n']⟩ :: threeRuns) rfl rfl rfl
    (by decide)
  have h' := blanks_closed_up { compressBlanks := true } threeRuns rfl rfl rfl (by decide)
  exact ⟨⟨(h.2.2.1 [] _ threeRuns [] (by simp) rfl rfl (by decide)).2, by decide⟩,
    (h'.2.2.2 threeRuns [] (by simp) (by decide)).2⟩

end CondResolve
