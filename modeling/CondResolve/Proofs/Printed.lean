import CondResolve.Proofs.Comments
import CondResolve.Proofs.Frames
import CondResolve.Proofs.Shaping

/-!
# Lines of the output

What a step writes for a line of the source ends in one line, which is that line or a placeholder, and in front of
it there can be a marker. With markers whoever counts the lines of the output and goes by the markers has the right
number at every line (`markers_keep_numbers`): wherever lines are left out the next one that is written gets a
marker. With placeholders the output has line for line the source or an empty line (`placeholders_keep_grid`).
-/

namespace CondResolve

/-! ## The lines of a step -/

inductive Printed where
  /-- What is written for line `n` of the source. -/
  | line (n : Nat) (text : Chars)
  /-- A marker that was put in front of line `n`. -/
  | marker (n : Nat) (text : Chars)

def Printed.text : Printed → Chars
  | .line _ l | .marker _ l => l

/-- The last line that a step writes stands for its line of the source, those before it are markers. -/
def Step.printed (st : Step) : List Printed :=
  (lines st.out).dropLast.map (.marker st.run.number) ++ (lines st.out).getLast?.toList.map (.line st.run.number)

/-- What the steps on the lines write; the last step is that of the end of the text. -/
def Trace.printed (tr : Trace) : List Printed := tr.steps.dropLast.flatMap Step.printed

/-- Read with a counter that stands at `k`, that goes up by one at each line and that a marker sets, the lines are
met at their numbers in the source. -/
def Numbered : Nat → List Printed → Prop
  | _, [] => True
  | k, .line n _ :: ps => k = n ∧ Numbered (k + 1) ps
  | _, .marker n _ :: ps => Numbered n ps

/-- `line` has the keyword `word` of a directive behind `p`, and `u` follows it. -/
def HasKeyword (line p word u : Chars) : Prop :=
  line = p ++ (word ++ u) ∧ ∃ verbatim lx lk, findKeyword verbatim lx line = .ok (lk, word ++ u)

/-- What stands in the output for a line of kind `k` that is written: the line itself, or the line with its keyword
and what follows it edited, or a directive with the newline that it lacks. -/
inductive Shown (nl : Newline) (k : LineKind) (line : Chars) : Chars → Prop
  | verbatim : Shown nl k line line
  | elif {x : Truth} {dodgy : Bool} {p u v : Chars} : k = .directive (.elif x) dodgy →
    HasKeyword line p "elif".toList u →
    v = "if  ".toList ++ u ∨ v = "else".toList ++ nl.chars ∨ v = "endif".toList ++ nl.chars →
      Shown nl k line (p ++ v)
  | otherwise {dodgy : Bool} {p u : Chars} : k = .directive .otherwise dodgy → HasKeyword line p "else".toList u →
    Shown nl k line (p ++ ("endif".toList ++ nl.chars))
  | ended {d : Directive} {dodgy : Bool} : k = .directive d dodgy → lacksNewline line = true →
    Shown nl k line (line ++ nl.chars)

/-! ## What a line comes to -/

theorem directive_of_edit {permit dodgy : Bool} {here : Option Phase} {d : Directive} {turn : Turn} {e : Edit}
    (h : d.turn permit here dodgy = .ok turn) (he : turn.edit = some e) :
    (∃ x, d = .elif x) ∨ d = .otherwise ∧ e = .toEndif := by
  cases d with
  | elif x => exact .inl ⟨x, rfl⟩
  | guard holds =>
    rcases openTurn_cases h with ⟨-, rfl⟩ | ⟨-, -, rfl⟩ | ⟨-, -, -, rfl⟩ | ⟨-, -, -, rfl⟩ <;> cases he
  | opening x =>
    rcases openTurn_cases h with ⟨-, rfl⟩ | ⟨-, -, rfl⟩ | ⟨-, -, -, rfl⟩ | ⟨-, -, -, rfl⟩ <;> cases he
  | otherwise =>
    cases here with
    | none => cases h
    | some p =>
      rcases elseTurn_cases h with ⟨-, rfl⟩ | ⟨-, rfl⟩ | ⟨-, -, rfl⟩ | ⟨-, -, rfl⟩ <;> cases he
      exact .inr ⟨rfl, rfl⟩
  | closing =>
    cases here with
    | none => cases h
    | some p => rcases closeTurn_cases h with ⟨-, rfl⟩ | ⟨-, -, rfl⟩ <;> cases he

section
variable {s : Settings} {t : Table} {r : Run} {line : Chars} {ls : List Chars} {c : Classified} {turn : Turn}
    {st : Step}

theorem else_of_classify {v : View} {lx lk : Lexical} {w : Chars} {dodgy : Bool}
    (h : classify s t v lx line = .ok c) (hfind : findKeyword v.verbatim lx line = .ok (lk, w))
    (hk : c.kind = .directive .otherwise dodgy) :
    ∃ u, w = "else".toList ++ u := by
  obtain ⟨lk', w', hfind', hc⟩ := classify_eq_ok_iff.mp h
  rw [hfind] at hfind'
  cases hfind'
  rcases hc with ⟨-, rfl⟩ | ⟨-, -, -, _, -, rfl⟩ | ⟨-, j, lx', d, hj, hfin, rfl⟩
  · cases hk
  · cases hk
  · obtain ⟨rfl, -⟩ := LineKind.directive.inj hk
    have hform : formOf w = .otherwise := (untrusted_of_judge hj).symm.trans (untrusted_of_finish hfin).symm
    rcases judge_cases hj with ⟨_, u, rfl | rfl, -⟩ | ⟨u, rfl, -⟩ | ⟨u, rfl, -⟩ | ⟨u, rfl, -⟩ | ⟨u, rfl, -⟩
    all_goals first | exact ⟨u, rfl⟩ | cases hform

theorem shown_of_edit {d : Directive} {dodgy : Bool} {e : Edit} (ha : Advances s t r line c turn st)
    (hl : lacksNewline line = false) (hk : c.kind = .directive d dodgy) (he : turn.edit = some e) :
    Shown (r.newlineAt line) c.kind line (e.apply (r.current line c)) := by
  obtain ⟨p, w, lk, hline, hfind, -, hkw, helif, -, hcl⟩ := keyword_of_classify ha.classified hk
  have hcl : c.line = line := hcl.resolve_right (by simp [hl])
  have htake : c.line.take c.keyword = p := by simp [hcl, hline, hkw]
  rcases directive_of_edit (ha.directive hk).1 he with ⟨x, rfl⟩ | ⟨rfl, rfl⟩
  · obtain ⟨u, rfl⟩ := helif x rfl
    have hword : HasKeyword line p "elif".toList u := ⟨hline, _, _, _, hfind⟩
    have hdrop : c.line.drop (c.keyword + 4) = u := by
      rw [hcl, hline, hkw, List.drop_length_add_append]
      rfl
    cases e with
    | toIf =>
      show Shown _ _ _ (c.line.take c.keyword ++ "if  ".toList ++ c.line.drop (c.keyword + 4))
      rw [htake, hdrop, List.append_assoc]
      exact .elif hk hword (.inl rfl)
    | toElse =>
      show Shown _ _ _ (c.line.take c.keyword ++ "else".toList ++ (r.newlineAt line).chars)
      rw [htake, List.append_assoc]
      exact .elif hk hword (.inr (.inl rfl))
    | toEndif =>
      show Shown _ _ _ (c.line.take c.keyword ++ "endif".toList ++ (r.newlineAt line).chars)
      rw [htake, List.append_assoc]
      exact .elif hk hword (.inr (.inr rfl))
  · obtain ⟨u, rfl⟩ := else_of_classify ha.classified hfind hk
    show Shown _ _ _ (c.line.take c.keyword ++ "endif".toList ++ (r.newlineAt line).chars)
    rw [htake, List.append_assoc]
    exact .otherwise hk ⟨hline, _, _, _, hfind⟩

theorem shown_of_advance (hls : Physical (line :: ls)) (hf : (st.run.trace s t ls).failure = none)
    (ha : Advances s t r line c turn st) (hadv : r.advance s t line = .ok st) :
    Shown (r.newlineAt line) st.kind line st.line := by
  rw [ha.line_eq hadv, ha.kind]
  rcases kind_of_classify ha.classified with hk | ⟨d, dodgy, hk, -⟩
  · obtain ⟨hline, rfl, -⟩ := ha.plain hk
    rw [← hline]
    exact .verbatim
  · cases he : turn.edit with
    | none =>
      have htext : turn.text (r.current line c) = c.line := by simp [Turn.text, he, Run.current]
      rw [htext]
      rcases line_of_classify ha.classified with ⟨-, hline⟩ | ⟨-, hl, hline⟩
      · rw [hline]
        exact .verbatim
      · rw [hline]
        exact .ended hk hl
    | some e =>
      have htext : turn.text (r.current line c) = e.apply (r.current line c) := by simp [Turn.text, he]
      rw [htext]
      refine shown_of_edit ha ?_ hk he
      rcases hls with ⟨hfull, -⟩ | ⟨rfl, -⟩
      · exact hfull.lacksNewline
      · -- The last line can only be the end of a group, which is not edited.
        rw [(ha.closing hk (complete_of_finish hf)).2.1] at he
        cases he

theorem fullLine_of_advance (hfull : FullLine line) (ha : Advances s t r line c turn st)
    (hadv : r.advance s t line = .ok st) : FullLine st.line := by
  rw [ha.line_eq hadv]
  rcases kind_of_classify ha.classified with hk | ⟨d, dodgy, hk, -⟩
  · obtain ⟨hline, rfl, -⟩ := ha.plain hk
    rwa [← hline] at hfull
  · exact fullLine_text hfull ha hk

end

/-! ## Single lines -/

theorem OneLine.lines_eq {l : Chars} (h : OneLine l) (hne : l ≠ []) : lines l = [l] := by
  cases hl : lacksNewline l with
  | true => exact lines_partial hne (h.not_mem_of_lacksNewline hl)
  | false =>
    obtain rfl | ⟨q, a, rfl⟩ := List.eq_nil_or_concat' l
    · exact absurd rfl hne
    · obtain rfl : a = '\n' := by simpa [lacksNewline] using hl
      have hfull : FullLine (q ++ ['\n']) := ⟨q, h.not_mem_of_append (by simp), rfl⟩
      simpa [lines] using lines_full hfull []

theorem Physical.ne_nil {l : Chars} {ls : List Chars} (h : Physical (l :: ls)) : l ≠ [] := by
  rcases h with ⟨hfull, -⟩ | ⟨-, hne, -⟩
  · exact hfull.ne_nil
  · exact hne

theorem Physical.append {a b : List Chars} (hb : Physical b) (ha : ∀ l ∈ a, FullLine l) : Physical (a ++ b) := by
  induction a with
  | nil => exact hb
  | cons l a ih => exact .inl ⟨ha l List.mem_cons_self, ih fun l hl => ha l (List.mem_cons_of_mem _ hl)⟩

theorem fullLine_lineMarker {s : Settings} (hfile : ∀ f, s.lineFile = some f → '\n' ∉ f.toList) (nl : Newline)
    (n : Nat) :
    FullLine (lineMarker s nl n) := by
  have hnumber : '\n' ∉ Nat.toDigits 10 n := by
    intro hm
    cases Nat.isDigit_of_mem_toDigits (by decide) (by decide) hm
  unfold lineMarker
  refine fullLine_append ?_ nl
  cases hf : s.lineFile with
  | none => simp [String.toList_append, hnumber]
  | some f =>
    have hname := hfile f hf
    by_cases he : f.isEmpty = true <;> simp [String.toList_append, hnumber, hname, he]

theorem text_printed (st : Step) : st.printed.map Printed.text = lines st.out := by
  unfold Step.printed
  obtain hnil | ⟨ls, l, hl⟩ := List.eq_nil_or_concat' (lines st.out)
  · rw [hnil]
    rfl
  · rw [hl]
    simp [Function.comp_def, Printed.text]

/-! ## Steps -/

inductive Prints (s : Settings) (r : Run) (nl : Newline) (st : Step) : Prop
  | line : (s.lineMarkers = true → r.machine.writer.dropped = 0) → lines st.out = [st.line] → Prints s r nl st
  | marked : s.lineMarkers = true → lines st.out = [lineMarker s nl (r.number + 1), st.line] → Prints s r nl st
  | nothing : (s.blankPlaceholders = true → s.compressBlanks = true) → st.run.machine.writer.dropped ≠ 0 →
    lines st.out = [] → Prints s r nl st
  | placeholder : s.blankPlaceholders = true → lines st.out = [nl.chars] → Prints s r nl st

section
variable {s : Settings} {t : Table} {r : Run} {line : Chars} {ls : List Chars} {c : Classified} {turn : Turn}
    {st : Step} (hq : s.Silent) (hfile : s.lineMarkers = true → ∀ f, s.lineFile = some f → '\n' ∉ f.toList)
  (ha : Advances s t r line c turn st) (hadv : r.advance s t line = .ok st)
include hq hfile ha hadv

theorem prints_of_advance (ho : OneLine line) (hne : line ≠ []) : Prints s r (r.newlineAt line) st := by
  have hline := ha.line_eq hadv
  have hsingle : lines st.line = [st.line] := by
    refine OneLine.lines_eq ?_ (rendered_ne_nil hne (rendered_of_advance ha hadv))
    rw [hline]
    exact oneLine_text ho ha
  have hwriter := ha.writer
  have hout := ha.out
  unfold Run.written Writer.flush at hwriter hout
  simp only [hq.listing, Bool.false_eq_true, if_false] at hwriter hout
  by_cases hk : (turn.keep != s.complement) = true
  · rw [if_pos hk] at hwriter hout
    by_cases hb : (isBlank (turn.text (r.current line c)) && s.compressBlanks &&
        decide ((r.writing c turn).blanks ≠ (r.writing c turn).blankMax)) = true
    · rw [if_pos hb] at hwriter hout
      simp only [Bool.and_eq_true] at hb
      exact .nothing (fun _ => hb.1.2) (by simp [hwriter, Writer.absorb]) (by simp [hout, lines])
    · rw [if_neg hb, ← hline] at hwriter hout
      by_cases hm : (s.lineMarkers && decide (0 < (r.writing c turn).dropped)) = true
      · have hout : st.out = lineMarker s (r.newlineAt line) (r.number + 1) ++ st.line := by
          simpa [Writer.write, hm] using hout
        have hmarkers := (Bool.and_eq_true_iff.mp hm).1
        refine .marked hmarkers ?_
        rw [hout, lines_full (fullLine_lineMarker (hfile hmarkers) _ _), hsingle]
      · have hout : st.out = st.line := by simpa [Writer.write, hm] using hout
        refine .line (fun hl => ?_) (by rw [hout, hsingle])
        have hd : (r.writing c turn).dropped = 0 := by simpa [hl] using hm
        exact hd
  · rw [if_neg hk] at hwriter hout
    by_cases hb : s.blankPlaceholders = true
    · have hout : st.out = (r.newlineAt line).chars := by simpa [Writer.drop, hb] using hout
      have hnewline : lines ((r.newlineAt line).chars ++ []) = _ := lines_full (fullLine_newline _) []
      exact .placeholder hb (by rw [hout]; simpa [lines] using hnewline)
    · have hout : st.out = [] := by simpa [Writer.drop, hb] using hout
      exact .nothing (fun h => absurd h hb) (by simp [hwriter, Writer.drop]) (by simp [hout, lines])

theorem fullLine_of_lines (hfull : FullLine line) : ∀ l ∈ lines st.out, FullLine l := by
  have hline := fullLine_of_advance hfull ha hadv
  cases prints_of_advance hq hfile ha hadv hfull.oneLine hfull.ne_nil with
  | line _ hl => simpa [hl] using hline
  | marked hm hl => simpa [hl] using ⟨fullLine_lineMarker (hfile hm) _ _, hline⟩
  | nothing _ _ hl => simp [hl]
  | placeholder _ hl => simpa [hl] using fullLine_newline _

end

/-! ## Runs -/

section
variable {s : Settings} {t : Table} {r : Run} {ls : List Chars}

theorem printed_cons {st : Step} {tr : Trace} (hne : tr.steps ≠ []) :
    Trace.printed ⟨st :: tr.steps, tr.failure⟩ = st.printed ++ tr.printed := by
  simp [Trace.printed, List.dropLast_cons_of_ne_nil hne]

theorem printed_nil (hq : s.Silent) (hf : (r.trace s t []).failure = none) : (r.trace s t []).printed = [] := by
  have hend : r.trace s t [] = _ := finish_of_complete hq (complete_of_finish hf)
  rw [hend]
  rfl

section
variable (hq : s.Silent) (hfile : s.lineMarkers = true → ∀ f, s.lineFile = some f → '\n' ∉ f.toList)
  (hls : Physical ls) (hf : (r.trace s t ls).failure = none)
include hq hfile hls hf

theorem lines_of_trace : lines (r.trace s t ls).text = (r.trace s t ls).printed.map Printed.text := by
  induction ls generalizing r with
  | nil =>
    rw [printed_nil hq hf, text_of_complete hq (complete_of_finish hf)]
    rfl
  | cons line ls ih =>
    obtain ⟨st, c, turn, hadv, ha⟩ := advances_of_trace hq hf
    rw [trace_of_advance hadv] at hf ⊢
    rw [text_cons, printed_cons (steps_ne_nil hf), List.map_append, text_printed, ← ih hls.tail hf]
    -- Only the last line of a source can lack its newline, and nothing is written after it.
    rcases hls with ⟨hfull, -⟩ | ⟨rfl, -⟩
    · have hphysical := (physical_lines (st.run.trace s t ls).text).append
        (fullLine_of_lines hq hfile ha hadv hfull)
      have htext := lines_flatten hphysical
      rwa [List.flatten_append, flatten_lines, flatten_lines] at htext
    · rw [text_of_complete hq (complete_of_finish hf)]
      simp [lines]

/-- Lines that are left out are counted, and then the next one that is written has a marker in front. -/
theorem numbered_of_trace (hm : s.lineMarkers = true) (hv : s.isValid = true) {k : Nat}
    (hk : r.machine.writer.dropped = 0 ∨ s.blankPlaceholders = true → k = r.number + 1) :
    Numbered k (r.trace s t ls).printed := by
  induction ls generalizing r k with
  | nil =>
    rw [printed_nil hq hf]
    trivial
  | cons line ls ih =>
    obtain ⟨st, c, turn, hadv, ha⟩ := advances_of_trace hq hf
    rw [trace_of_advance hadv] at hf ⊢
    rw [printed_cons (steps_ne_nil hf), Step.printed]
    have hnum := (shift_of_advance hadv).1
    have hnext : Numbered (st.run.number + 1) (st.run.trace s t ls).printed := ih hls.tail hf fun _ => rfl
    cases prints_of_advance hq hfile ha hadv hls.oneLine hls.ne_nil with
    | line hd hl =>
      rw [hl]
      obtain rfl := hk (.inl (hd hm))
      exact ⟨hnum.symm, hnum ▸ hnext⟩
    | marked _ hl =>
      rw [hl]
      exact ⟨rfl, hnext⟩
    | nothing hb hd hl =>
      -- From here on the counter may be wrong: a marker comes before the next line.
      rw [hl]
      refine ih hls.tail hf fun h => ?_
      have hb' := h.resolve_left hd
      simp [Settings.isValid, hb', hb hb'] at hv
    | placeholder hb hl =>
      rw [hl]
      obtain rfl := hk (.inr hb)
      exact ⟨hnum.symm, hnum ▸ hnext⟩

end

structure Step.Writes (s : Settings) (nl : Newline) (n : Nat) (line : Chars) (st : Step) : Prop where
  number : st.run.number = n
  shown : Shown nl st.kind line st.line
  prints : ∃ r, r.number + 1 = n ∧ Prints s r nl st

theorem steps_of_trace (hq : s.Silent) (hfile : s.lineMarkers = true → ∀ f, s.lineFile = some f → '\n' ∉ f.toList)
    (hls : Physical ls) (hf : (r.trace s t ls).failure = none) {nl : Newline}
    (hnl : ∀ line, ls.head? = some line → r.newlineAt line = nl) :
    (r.trace s t ls).steps.dropLast.length = ls.length ∧
      ∀ (i : Nat) (line : Chars), ls[i]? = some line → ∃ st : Step,
        (r.trace s t ls).steps.dropLast[i]? = some st ∧ st.Writes s nl (r.number + i + 1) line := by
  induction ls generalizing r with
  | nil =>
    have hend : r.trace s t [] = _ := finish_of_complete hq (complete_of_finish hf)
    rw [hend]
    exact ⟨rfl, by simp⟩
  | cons line ls ih =>
    obtain ⟨st, c, turn, hadv, ha⟩ := advances_of_trace hq hf
    rw [trace_of_advance hadv] at hf ⊢
    obtain ⟨hnum, hnewline, -⟩ := shift_of_advance hadv
    have hfirst : r.newlineAt line = nl := hnl line rfl
    have hrest : ∀ l, st.run.newlineAt l = nl := by
      intro l
      rw [Run.newlineAt, hnewline, hfirst]
      rfl
    obtain ⟨hlen, hsteps⟩ := ih hls.tail hf fun l _ => hrest l
    simp only [List.dropLast_cons_of_ne_nil (steps_ne_nil hf)]
    refine ⟨by simp [hlen], fun i l hl => ?_⟩
    cases i with
    | zero =>
      obtain rfl : line = l := by simpa using hl
      have hshown := shown_of_advance hls hf ha hadv
      have hprints := prints_of_advance hq hfile ha hadv hls.oneLine hls.ne_nil
      rw [hfirst] at hshown hprints
      exact ⟨st, rfl, hnum, hshown, r, rfl, hprints⟩
    | succ i =>
      obtain ⟨st', hst', hwrites⟩ := hsteps i l (by simpa using hl)
      rw [hnum] at hwrites
      refine ⟨st', by simpa using hst', ?_⟩
      have hn : r.number + (i + 1) + 1 = r.number + 1 + i + 1 := by omega
      rwa [hn]

end

/-! ## Whole sources -/

def detected (source : Chars) : Newline := .ofLine ((lines source).headD [])

/-- What a line of the output is to the source: what is written for line `n` is that line or a placeholder. -/
def Printed.Of (s : Settings) (source : Chars) : Printed → Prop
  | .line n l => ∃ i line k, n = i + 1 ∧ (lines source)[i]? = some line ∧
      (Shown (detected source) k line l ∨ s.blankPlaceholders = true ∧ l = (detected source).chars)
  | .marker n l => l = lineMarker s (detected source) n

section
variable {s : Settings} {symbols : List Symbol} {script source : Chars} {out : Resolved}

theorem trace_of_resolve (h : resolve s symbols script source = .ok out) : ∃ t, s.isValid = true ∧
    traceSource s symbols script source = ({} : Run).trace s t (lines source) ∧
    (({} : Run).trace s t (lines source)).failure = none ∧
    out.text = (({} : Run).trace s t (lines source)).text := by
  obtain ⟨t, hv, hbuild, hres⟩ := resolve_eq_ok_iff.mp h
  obtain ⟨hf, rfl⟩ := resolved_eq_ok_iff.mp hres
  exact ⟨t, hv, traceSource_of_table hv hbuild source, hf, rfl⟩

section
variable (hq : s.Silent) (hfile : s.lineMarkers = true → ∀ f, s.lineFile = some f → '\n' ∉ f.toList)
  (h : resolve s symbols script source = .ok out)
include hq hfile h

theorem writes_of_resolve :
    (traceSource s symbols script source).steps.dropLast.length = (lines source).length ∧
      ∀ (i : Nat) (line : Chars), (lines source)[i]? = some line → ∃ st : Step,
        (traceSource s symbols script source).steps.dropLast[i]? = some st ∧
          st.Writes s (detected source) (i + 1) line := by
  obtain ⟨t, -, htrace, hf, -⟩ := trace_of_resolve h
  rw [htrace]
  have hnl : ∀ line, (lines source).head? = some line → ({} : Run).newlineAt line = detected source := by
    intro line hline
    rw [detected, List.headD_eq_head?_getD, hline]
    rfl
  simpa using steps_of_trace hq hfile (physical_lines source) hf hnl

theorem writes_of_mem {st : Step} (hst : st ∈ (traceSource s symbols script source).steps.dropLast) :
    ∃ i line, (lines source)[i]? = some line ∧ st.Writes s (detected source) (i + 1) line := by
  obtain ⟨hlen, hsteps⟩ := writes_of_resolve hq hfile h
  obtain ⟨i, hi⟩ := List.mem_iff_getElem?.1 hst
  have hline : i < (lines source).length := by
    rw [← hlen]
    exact (List.getElem?_eq_some_iff.1 hi).1
  obtain ⟨st', hst', hwrites⟩ := hsteps i _ (List.getElem?_eq_getElem hline)
  rw [hi] at hst'
  cases hst'
  exact ⟨i, _, List.getElem?_eq_getElem hline, hwrites⟩

theorem lines_of_resolve : lines out.text = (traceSource s symbols script source).printed.map Printed.text := by
  obtain ⟨t, -, htrace, hf, htext⟩ := trace_of_resolve h
  rw [htrace, htext]
  exact lines_of_trace hq hfile (physical_lines source) hf

theorem numbered_of_resolve (hm : s.lineMarkers = true) :
    Numbered 1 (traceSource s symbols script source).printed := by
  obtain ⟨t, hv, htrace, hf, -⟩ := trace_of_resolve h
  rw [htrace]
  exact numbered_of_trace hq hfile (physical_lines source) hf hm hv fun _ => rfl

theorem of_of_resolve : ∀ p ∈ (traceSource s symbols script source).printed, p.Of s source := by
  intro p hp
  obtain ⟨st, hst, hp⟩ := List.mem_flatMap.1 hp
  obtain ⟨i, line, hline, hnum, hshown, r, hr, hprints⟩ := writes_of_mem hq hfile h hst
  have hof : Printed.Of s source (.line st.run.number st.line) := ⟨i, line, _, hnum, hline, .inl hshown⟩
  rw [Step.printed] at hp
  cases hprints with
  | line _ hl =>
    rw [hl] at hp
    obtain rfl := List.mem_singleton.1 hp
    exact hof
  | marked _ hl =>
    rw [hl] at hp
    rcases List.mem_pair.1 hp with rfl | rfl
    · show lineMarker s (detected source) (r.number + 1) = lineMarker s (detected source) st.run.number
      rw [hr, hnum]
    · exact hof
  | nothing _ _ hl =>
    rw [hl] at hp
    cases hp
  | placeholder hb hl =>
    rw [hl] at hp
    obtain rfl := List.mem_singleton.1 hp
    exact ⟨i, line, st.kind, hnum, hline, .inr ⟨hb, rfl⟩⟩

end

end

/-- With markers, whoever reads the output with a counter that follows them meets what is written for a line of the
source at the number of that line. -/
theorem markers_keep_numbers (s : Settings) (symbols : List Symbol) (script source : Chars) (out : Resolved)
    (hq : s.Silent) (hm : s.lineMarkers = true) (hfile : ∀ f, s.lineFile = some f → '\n' ∉ f.toList)
    (h : resolve s symbols script source = .ok out) :
    lines out.text = (traceSource s symbols script source).printed.map Printed.text ∧
      Numbered 1 (traceSource s symbols script source).printed ∧
      ∀ p ∈ (traceSource s symbols script source).printed, p.Of s source :=
  ⟨lines_of_resolve hq (fun _ => hfile) h, numbered_of_resolve hq (fun _ => hfile) h hm,
    of_of_resolve hq (fun _ => hfile) h⟩

def blanksAround : Chars := "\n#ifdef A\n\n// a\n#endif\n// b\n".toList

theorem markers_keep_numbers_compressed :
    let s : Settings := { compressBlanks := true, lineMarkers := true, lineFile := some "a.c" }
    resolve s [⟨"A", some "1", false⟩] [] blanksAround =
        .ok ⟨"\n#line 4 \"a.c\"\n// a\n#line 6 \"a.c\"\n// b\n".toList, true⟩ ∧
      lines "\n#line 4 \"a.c\"\n// a\n#line 6 \"a.c\"\n// b\n".toList =
        (traceSource s [⟨"A", some "1", false⟩] [] blanksAround).printed.map Printed.text ∧
      Numbered 1 (traceSource s [⟨"A", some "1", false⟩] [] blanksAround).printed := by
  intro s
  have hout : resolve s [⟨"A", some "1", false⟩] [] blanksAround =
      .ok ⟨"\n#line 4 \"a.c\"\n// a\n#line 6 \"a.c\"\n// b\n".toList, true⟩ := by cbv
  have hfile : ∀ f, s.lineFile = some f → '\n' ∉ f.toList := by
    intro f hf
    cases hf
    decide
  obtain ⟨hlines, hnumbered, -⟩ := markers_keep_numbers s _ _ _ _ ⟨rfl, rfl, rfl⟩ rfl hfile hout
  exact ⟨hout, hlines, hnumbered⟩

/-- With placeholders a line comes to one line. -/
theorem line_of_writes {s : Settings} {nl : Newline} {n : Nat} {line : Chars} {st : Step} (hv : s.isValid = true)
    (hb : s.blankPlaceholders = true) (hm : s.lineMarkers = false) (h : st.Writes s nl n line) :
    ∃ l, lines st.out = [l] ∧ (Shown nl st.kind line l ∨ l = nl.chars) := by
  obtain ⟨-, hshown, r, -, hprints⟩ := h
  cases hprints with
  | line _ hl => exact ⟨st.line, hl, .inl hshown⟩
  | marked hm' _ =>
    rw [hm] at hm'
    cases hm'
  | nothing hc _ _ => simp [Settings.isValid, hb, hc hb] at hv
  | placeholder _ hl => exact ⟨nl.chars, hl, .inr rfl⟩

/-- With placeholders and nothing else, the output has line for line the source or an empty line. -/
theorem placeholders_keep_grid (s : Settings) (symbols : List Symbol) (script source : Chars) (out : Resolved)
    (hq : s.Silent) (hb : s.blankPlaceholders = true) (hm : s.lineMarkers = false)
    (h : resolve s symbols script source = .ok out) :
    (lines out.text).length = (lines source).length ∧
      ∀ (i : Nat) (line : Chars), (lines source)[i]? = some line → ∃ st o,
        (traceSource s symbols script source).steps[i]? = some st ∧ (lines out.text)[i]? = some o ∧
          (Shown (detected source) st.kind line o ∨ o = (detected source).chars) := by
  have hfile : s.lineMarkers = true → ∀ f, s.lineFile = some f → '\n' ∉ f.toList := by simp [hm]
  obtain ⟨-, hv, -⟩ := resolve_eq_ok_iff.mp h
  obtain ⟨hlen, hsteps⟩ := writes_of_resolve hq hfile h
  have hone : ∀ st ∈ (traceSource s symbols script source).steps.dropLast,
      st.printed.map Printed.text = [(lines st.out).headD []] := by
    intro st hst
    obtain ⟨_, _, -, hwrites⟩ := writes_of_mem hq hfile h hst
    obtain ⟨l, hl, -⟩ := line_of_writes hv hb hm hwrites
    rw [text_printed, hl]
    rfl
  have hlines : lines out.text =
      (traceSource s symbols script source).steps.dropLast.map fun st => (lines st.out).headD [] := by
    rw [lines_of_resolve hq hfile h, Trace.printed, List.map_flatMap, List.map_eq_flatMap]
    exact List.flatMap_congr hone
  refine ⟨by rw [hlines, List.length_map, hlen], fun i line hline => ?_⟩
  obtain ⟨st, hst, hwrites⟩ := hsteps i line hline
  obtain ⟨l, hl, hwhat⟩ := line_of_writes hv hb hm hwrites
  refine ⟨st, l, ?_, by rw [hlines, List.getElem?_map, hst, Option.map_some, hl]; rfl, hwhat⟩
  rw [List.getElem?_dropLast] at hst
  split at hst
  · exact hst
  · cases hst

theorem placeholders_keep_grid_blanks :
    resolve { blankPlaceholders := true } [⟨"A", some "1", false⟩] [] blanksAround =
        .ok ⟨"\n\n\n// a\n\n// b\n".toList, true⟩ ∧
      (lines "\n\n\n// a\n\n// b\n".toList).length = (lines blanksAround).length := by
  have hout : resolve { blankPlaceholders := true } [⟨"A", some "1", false⟩] [] blanksAround =
      .ok ⟨"\n\n\n// a\n\n// b\n".toList, true⟩ := by cbv
  exact ⟨hout, (placeholders_keep_grid _ _ _ _ _ ⟨rfl, rfl, rfl⟩ rfl rfl hout).1⟩

end CondResolve
