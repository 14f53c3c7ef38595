import CondResolve.Proofs.Coverage

/-!
# One newline convention

All that a run writes follows the newline convention of its source (`newlines_kept`). What it writes are lines of
the source, some of them cut at the keyword of a directive, and text of its own that is within a line or ends in the
newline of the first line.
-/

namespace CondResolve

/-! ## Texts within a line -/

def Inline (cs : Chars) : Prop := '\n' ∉ cs ∧ '\r' ∉ cs

instance (cs : Chars) : Decidable (Inline cs) := inferInstanceAs (Decidable (_ ∧ _))

section
variable {a b cs : Chars} {c : Char}

@[simp] theorem inline_nil : Inline [] := by simp [Inline]

@[simp] theorem inline_cons : Inline (c :: cs) ↔ (c ≠ '\n' ∧ c ≠ '\r') ∧ Inline cs := by
  simp only [Inline, List.mem_cons, not_or, eq_comm]
  tauto

@[simp] theorem inline_append : Inline (a ++ b) ↔ Inline a ∧ Inline b := by
  simp only [Inline, List.mem_append, not_or]
  tauto

theorem inline_of_forall (h : ∀ d ∈ cs, d ≠ '\n' ∧ d ≠ '\r') : Inline cs :=
  ⟨fun hm => (h _ hm).1 rfl, fun hm => (h _ hm).2 rfl⟩

theorem inline_symbolOf (cs : Chars) : Inline (symbolOf cs) := by
  refine inline_of_forall fun d hd => ?_
  have hsymbol := ne_of_isSymbolChar (List.mem_takeWhile_imp hd)
  exact ⟨hsymbol.2.2.2.2.1, hsymbol.2.2.2.1⟩

theorem inline_digit (d : Nat) : Inline [Nat.digitChar d] := by
  by_cases hd : d < 16
  · have hall : ∀ d < 16, Inline [Nat.digitChar d] := by decide
    exact hall d hd
  · have hstar : Nat.digitChar d = '*' := by
      unfold Nat.digitChar
      repeat rw [if_neg (by omega)]
    rw [hstar]
    decide

@[simp] theorem inline_toDigits (b n : Nat) : Inline (Nat.toDigits b n) := by
  have hcore : ∀ fuel n ds, Inline ds → Inline (Nat.toDigitsCore b fuel n ds) := by
    intro fuel
    induction fuel with
    | zero => exact fun _ _ h => h
    | succ fuel ih =>
      intro n ds h
      have hds : Inline (Nat.digitChar (n % b) :: ds) := inline_append (a := [_]).2 ⟨inline_digit _, h⟩
      rw [Nat.toDigitsCore]
      split
      · exact hds
      · exact ih _ _ hds
  exact hcore _ _ _ inline_nil

@[simp] theorem inline_intText (n : Int) : Inline n.repr.toList := by
  cases n with
  | ofNat n =>
    have htext : (Int.ofNat n).repr.toList = Nat.toDigits 10 n := by simp [Int.repr]
    rw [htext]
    exact inline_toDigits 10 n
  | negSucc n =>
    have htext : (Int.negSucc n).repr.toList = '-' :: Nat.toDigits 10 (n + 1) := by simp [Int.repr]
    rw [htext]
    exact inline_append (a := ['-']).2 ⟨by decide, inline_toDigits 10 _⟩

theorem inline_hex (width n : Nat) : Inline (Quoted.hex width n) := by
  refine inline_append.2 ⟨inline_of_forall fun d hd => ?_, inline_toDigits 16 n⟩
  simp [List.eq_of_mem_replicate hd]

theorem inline_escape {q : Char} (hq : q = '\'' ∨ q = '"') (d : Char) : Inline (Quoted.escape q d) := by
  unfold Quoted.escape
  split
  · rename_i hd
    have hd : d = q ∨ d = '\\' := by simpa using hd
    rcases hd with rfl | rfl
    · rcases hq with rfl | rfl <;> decide
    · decide
  · by_cases hn : d = '\n'
    · rw [if_pos hn]
      decide
    · by_cases hr : d = '\r'
      · rw [if_neg hn, if_pos hr]
        decide
      · rw [if_neg hn, if_neg hr]
        repeat' split
        · decide
        · simp [hn, hr]
        · unfold Quoted.numbered
          repeat' split
          all_goals simp [inline_hex]

/-- Whatever a text holds, it is shown within a line. -/
@[simp] theorem inline_quoted (s : String) : Inline (quoted s).toList := by
  have hquote : Quoted.quoteFor s.toList = '\'' ∨ Quoted.quoteFor s.toList = '"' := by
    unfold Quoted.quoteFor
    split <;> simp
  have hq : Inline [Quoted.quoteFor s.toList] := by
    rcases hquote with hq | hq <;> rw [hq] <;> decide
  have hbody : Inline (s.toList.flatMap (Quoted.escape (Quoted.quoteFor s.toList))) := by
    refine inline_of_forall fun d hd => ?_
    obtain ⟨e, -, he⟩ := List.mem_flatMap.1 hd
    have hescape := inline_escape hquote e
    exact ⟨fun h => hescape.1 (h ▸ he), fun h => hescape.2 (h ▸ he)⟩
  unfold quoted
  simp only [String.toList_ofList]
  exact inline_append.2 ⟨inline_append (a := [_]).2 ⟨hq, hbody⟩, hq⟩

end

/-! ## Conventions -/

def Newline.Governs : Newline → Chars → Prop
  | .crlf, cs => ∀ p r, cs = p ++ '\n' :: r → p.getLast? = some '\r'
  | .lf, cs => '\r' ∉ cs

namespace Newline.Governs

variable {nl : Newline} {a b cs : Chars}

theorem append (ha : nl.Governs a) (hb : nl.Governs b) : nl.Governs (a ++ b) := by
  cases nl with
  | lf => simp_all [Governs]
  | crlf =>
    intro p r he
    rcases List.append_eq_append_iff.1 he with ⟨x, rfl, hx⟩ | ⟨x, rfl, hx⟩
    · have hlast := hb x r hx
      rw [List.getLast?_append, hlast]
      rfl
    · cases x with
      | nil => simpa using hb [] r (by simpa using hx.symm)
      | cons d x =>
        cases hx
        exact ha p x rfl

theorem front (h : nl.Governs (a ++ b)) : nl.Governs a := by
  cases nl with
  | lf => exact fun hm => h (List.mem_append_left _ hm)
  | crlf => exact fun p r he => h p (r ++ b) (by simp [he])

/-- Nothing is torn apart behind a text that does not end in a carriage return. -/
theorem behind (h : nl.Governs (a ++ b)) (ha : a.getLast? ≠ some '\r') : nl.Governs b := by
  cases nl with
  | lf => exact fun hm => h (List.mem_append_right _ hm)
  | crlf =>
    intro p r he
    have hlast := h (a ++ p) r (by simp [he])
    cases p with
    | nil => exact absurd (by simpa using hlast) ha
    | cons d p =>
      rw [List.getLast?_append_of_ne_nil _ (by simp)] at hlast
      exact hlast

theorem chars (nl : Newline) : nl.Governs nl.chars := by
  cases nl with
  | lf => simp [Governs, Newline.chars]
  | crlf =>
    intro p r he
    rcases p with _ | ⟨d, _ | ⟨e, p⟩⟩ <;> simp [Newline.chars] at he
    obtain ⟨rfl, -⟩ := he
    rfl

theorem of_inline (h : Inline cs) : nl.Governs cs := by
  cases nl with
  | lf => exact h.2
  | crlf =>
    rintro p r rfl
    exact absurd (by simp) h.1

theorem flatMap {α : Type} {l : List α} {f : α → Chars} (h : ∀ x ∈ l, nl.Governs (f x)) :
    nl.Governs (l.flatMap f) := by
  induction l with
  | nil => exact of_inline inline_nil
  | cons x l ih =>
    rw [List.flatMap_cons]
    exact (h x (by simp)).append (ih fun y hy => h y (by simp [hy]))

/-- One word may take the place of another. -/
theorem reword {w w' : Chars} (h : nl.Governs (a ++ w ++ b)) (hw : Inline w) (hne : w ≠ []) (hw' : Inline w') :
    nl.Governs (a ++ w' ++ b) := by
  refine (h.front.front.append (of_inline hw')).append (h.behind ?_)
  rw [List.getLast?_append_of_ne_nil _ hne]
  intro hlast
  exact hw.2 (List.mem_of_getLast? hlast)

end Newline.Governs

/-! ## What a condition says -/

/-- What reading a condition says of it is within a line: the names in it, and why it stopped. -/
structure Reading.Spoken (p : Reading) : Prop where
  names : ∀ i ∈ p.code, ∀ name ∈ i.names, Inline name.toList
  fault : ∀ f lx, p.next = .error (.fault f lx) → Inline f.text.toList

namespace Reading.Spoken

variable {lx : Lexical} {rest : Chars} {code : List Instr} {p : Reading}

theorem halt (f : Fault) (lx : Lexical) (h : Inline f.text.toList) : (Reading.halt (.fault f lx)).Spoken := by
  refine ⟨by simp [Reading.halt], ?_⟩
  intro g ly he
  cases he
  exact h

theorem broken (b : Broken) : (Reading.halt (.broken b)).Spoken :=
  ⟨by simp [Reading.halt], fun _ _ he => by cases he⟩

theorem done (h : ∀ i ∈ code, i.names = []) : (Reading.done code lx rest).Spoken := by
  refine ⟨fun i hi name hname => ?_, fun _ _ he => by cases he⟩
  rw [h i hi] at hname
  cases hname

theorem after (hc : ∀ i ∈ code, ∀ name ∈ i.names, Inline name.toList) (h : p.Spoken) : (p.after code).Spoken := by
  refine ⟨fun i hi => ?_, h.fault⟩
  rcases List.mem_append.1 hi with hi | hi
  · exact hc i hi
  · exact h.names i hi

theorem nested (h : p.Spoken) (calls : Nat) : (p.nested calls).Spoken := by
  refine ⟨fun i hi name hname => ?_, h.fault⟩
  simp only [Reading.nested, List.mem_append, List.mem_cons, List.not_mem_nil, or_false] at hi
  rcases hi with (rfl | hi) | rfl
  · cases hname
  · exact h.names i hi name hname
  · cases hname

theorem bind {k : Lexical → Chars → Reading} (h : p.Spoken)
    (hk : ∀ lx rest, p.next = .ok (lx, rest) → (k lx rest).Spoken) : (p.bind k).Spoken := by
  unfold Reading.bind
  split
  · exact h
  · rename_i lx rest he
    exact (hk lx rest he).after h.names

end Reading.Spoken

section
variable {verbatim : Bool} {lx : Lexical} {cs : Chars}

theorem spoken_closeParen : (closeParen verbatim lx cs).Spoken := by
  unfold closeParen
  split
  · exact .broken _
  · exact .done (by simp)
  · exact .halt _ _ (by decide)

theorem spoken_definedName {paren : Bool} : (definedName verbatim paren lx cs).Spoken := by
  unfold definedName
  refine .after (fun i hi name hname => ?_) ?_
  · split at hi
    · cases hi
    · obtain rfl := List.mem_singleton.1 hi
      obtain rfl := List.mem_singleton.1 hname
      simpa using inline_symbolOf cs
  · split
    · exact .broken _
    · split
      · split
        · exact .done (by simp [Instr.names])
        · exact .halt _ _ (by decide)
      · exact .done (by simp [Instr.names])

theorem spoken_definedTest : (definedTest verbatim lx cs).Spoken := by
  unfold definedTest
  split
  · exact .broken _
  · split
    · exact .broken _
    · exact spoken_definedName
  · exact spoken_definedName

theorem spoken_symbolUse : (symbolUse verbatim lx cs).Spoken := by
  unfold symbolUse
  refine .after (fun i hi name hname => ?_) ?_
  · obtain rfl := List.mem_singleton.1 hi
    obtain rfl := List.mem_singleton.1 hname
    simpa using inline_symbolOf cs
  · split
    · exact .broken _
    · exact .done (by simp)

theorem spoken_atom : (atom verbatim lx cs).Spoken := by
  unfold atom
  split
  · exact .halt _ _ (by decide)
  · split
    · exact .done (by simp [Instr.names])
    · split
      · exact spoken_definedTest
      · split
        · exact spoken_symbolUse
        · exact .halt _ _ (by decide)

theorem Yields.spoken {task : Task} {p : Reading} (h : Yields verbatim task lx cs p) : p.Spoken := by
  induction h with
  | unreadable => exact .broken _
  | missing => exact .halt _ _ (by decide)
  | unary _ _ _ ih => exact (ih.nested _).bind fun _ _ _ => .done (by simp [Instr.names])
  | paren _ _ ih => exact (ih.nested _).bind fun _ _ _ => spoken_closeParen
  | atom => exact spoken_atom
  | climb _ _ ih ihon => exact ih.bind ihon
  | tight => exact .done (by simp)
  | unreadableOn => exact .broken _
  | stop => exact .done (by simp)
  | operator _ _ _ _ _ ih ihon => exact ih.bind fun lz u he => (ihon lz u he).after (by simp [Instr.names])

theorem spoken_climb {least : Nat} : (climb verbatim least lx cs).Spoken := (yields_read (.climb least)).spoken

end

section
variable {k : Knowledge} {strict : Bool} {e : Evaluation} {code : List Instr}

theorem apply_ne_nonNumeric (op : BinaryOp) (a b : Operand) (name v : String) :
    op.apply strict a b ≠ .error (.nonNumeric name v) := by
  intro h
  have hfault : op.fault? a b = some (.nonNumeric name v) := by
    unfold BinaryOp.apply at h
    split at h
    · cases h
      assumption
    · split at h <;> cases h
  unfold BinaryOp.fault? at hfault
  repeat' split at hfault
  all_goals cases hfault

theorem nonNumeric_of_run {f : Fault} {lx : Lexical} (h : (e.run k strict code).2 = some (f, lx)) {name v : String}
    (hf : f = .nonNumeric name v) : ∃ i ∈ code, name ∈ i.names := by
  induction code generalizing e with
  | nil => cases h
  | cons i code ih =>
    rw [Evaluation.run] at h
    split at h
    · obtain ⟨i', hi', hname⟩ := ih h
      exact ⟨i', List.mem_cons_of_mem _ hi', hname⟩
    · refine ⟨i, List.mem_cons_self .., ?_⟩
      subst hf
      cases i with
      | load x lex =>
        simp only [Evaluation.step] at h
        split at h
        · cases h
        · rename_i hv
          cases h
          unfold Evaluation.valueOf at hv
          repeat' split at hv
          all_goals cases hv
          simp [Instr.names]
      | binary op lex =>
        simp only [Evaluation.step] at h
        repeat' split at h
        all_goals cases h
        rename_i happly _
        exact absurd happly (apply_ne_nonNumeric op _ _ name v)
      | unary op =>
        simp only [Evaluation.step] at h
        split at h <;> cases h
      | _ => cases h

end

theorem inline_fault {f : Fault} (h : ∀ name v, f = .nonNumeric name v → Inline name.toList) :
    Inline f.text.toList := by
  cases f with
  | shiftCount n => simp [Fault.text, String.toList_append]
  | nonNumeric name v => simp [Fault.text, String.toList_append, h name v rfl]
  | _ => decide

section
variable {s : Settings} {t : Table} {v : View} {verbatim : Bool} {k : Knowledge} {lx lk : Lexical}
    {cs w line : Chars} {j : Judged} {c : Classified} {nl : Newline}

theorem inline_mentioned {name : String} (h : name ∈ (evaluate s verbatim k lx cs).mentioned) :
    Inline name.toList := by
  obtain ⟨names, hnames, hpre⟩ := mentioned_run k s.strictLogic {} (climb verbatim 0 lx cs).code
  have hmem : name ∈ (Evaluation.run k s.strictLogic {} (climb verbatim 0 lx cs).code).1.mentioned := h
  rw [hnames, List.nil_append] at hmem
  obtain ⟨i, hi, hname⟩ := List.mem_flatMap.1 (hpre.subset hmem)
  exact spoken_climb.names i hi name hname

theorem inline_fault_of_evaluate {f : Fault} {lf : Lexical}
    (h : (evaluate s verbatim k lx cs).result = .error (.fault f lf)) : Inline f.text.toList := by
  have hclimb : (climb verbatim 0 lx cs).Spoken := spoken_climb
  unfold evaluate at h
  simp only at h
  split at h
  · rename_i hrun
    cases h
    refine inline_fault fun name v hf => ?_
    obtain ⟨i, hi, hname⟩ := nonNumeric_of_run hrun hf
    exact hclimb.names i hi name hname
  · split at h
    · rename_i hn
      cases h
      exact hclimb.fault _ _ hn
    · cases h

/-! ## What is written of itself -/

theorem governs_note {message : String} (h : Inline message.toList) : nl.Governs (note s message) := by
  refine .of_inline ?_
  unfold note
  split
  · simp [h]
  · simp

theorem governs_listNames {depth : Nat} {first listed : Bool} {names : List String}
    (h : ∀ name ∈ names, Inline name.toList) : nl.Governs (listNames s nl depth first listed names) := by
  unfold listNames
  split
  · refine .append ?_ (.flatMap fun name hname => .of_inline (by simp [h name hname]))
    split
    · refine .append ?_ (.of_inline (by simp))
      split
      · exact .chars nl
      · exact .of_inline inline_nil
    · exact .of_inline inline_nil
  · split
    · exact .flatMap fun name hname => (Newline.Governs.of_inline (h name hname)).append (.chars nl)
    · exact .of_inline inline_nil

theorem governs_closeListing (listed : Bool) : nl.Governs (closeListing s nl listed) := by
  unfold closeListing
  split
  · exact .chars nl
  · exact .of_inline inline_nil

theorem governs_lineMarker {n : Nat} (h : ∀ f, s.lineFile = some f → nl.Governs f.toList) :
    nl.Governs (lineMarker s nl n) := by
  have hnumber : nl.Governs ("#line ".toList ++ (toString n).toList) := .of_inline (by simp)
  have hnone : nl.Governs "".toList := .of_inline (by decide)
  unfold lineMarker
  cases hf : s.lineFile with
  | none =>
    simp only [String.toList_append]
    exact (hnumber.append hnone).append (.chars nl)
  | some f =>
    have hquote : Inline " \"".toList ∧ Inline "\"".toList := by decide
    have hfile : nl.Governs (" \"".toList ++ f.toList ++ "\"".toList) :=
      ((Newline.Governs.of_inline hquote.1).append (h f hf)).append (.of_inline hquote.2)
    by_cases he : f.isEmpty = true
    · simp only [he, if_true, String.toList_append]
      exact (hnumber.append hnone).append (.chars nl)
    · simp only [he, Bool.false_eq_true, if_false, String.toList_append]
      exact (hnumber.append hfile).append (.chars nl)

theorem inline_label (k : LineKind) : Inline k.label.toList := by
  cases k with
  | directive d dodgy =>
    cases d with
    | guard b => cases b <;> cases dodgy <;> decide
    | opening x => cases x <;> cases dodgy <;> decide
    | elif x => cases x <;> cases dodgy <;> decide
    | _ => cases dodgy <;> decide
  | _ => decide

theorem inline_stackLabel (st : Stack) : Inline st.label.toList := by
  unfold Stack.label
  cases st.phase? with
  | none => decide
  | some p => cases p <;> decide

theorem governs_report {n : Nat} {k : LineKind} {m : Machine} : nl.Governs (m.report s n k) := by
  refine governs_note ?_
  simp [String.toList_append, inline_label, inline_stackLabel]

theorem said_of_judge (h : judge s t v lk w = .ok (some j)) :
    (∀ name ∈ j.names, Inline name.toList) ∧ nl.Governs j.note := by
  have condition : ∀ {form : Truth → Directive} {r : Chars}, judgeCondition s t v form lk r = .ok j →
      (∀ name ∈ j.names, Inline name.toList) ∧ nl.Governs j.note := by
    intro form r hj
    rcases judgeCondition_eq_ok hj with ⟨_, _, _, -, rfl⟩ | ⟨f, lf, hfault, rfl⟩
    · exact ⟨fun name => inline_mentioned, .of_inline inline_nil⟩
    · refine ⟨fun name => inline_mentioned, governs_note ?_⟩
      simp [String.toList_append, inline_fault_of_evaluate hfault]
  rcases judge_cases h with ⟨negated, r, -, hj⟩ | ⟨r, -, hj⟩ | ⟨r, -, hj⟩ | ⟨r, -, rfl⟩ | ⟨r, -, -, rfl⟩
  · obtain ⟨ly, rest, -, ⟨-, rfl⟩ | ⟨-, rfl⟩⟩ := judgeTest_eq_ok hj
    · exact ⟨by simp, .of_inline inline_nil⟩
    · refine ⟨fun name hname => ?_, .of_inline inline_nil⟩
      obtain rfl := List.mem_singleton.1 hname
      simpa using inline_symbolOf rest
  · exact condition hj
  · exact condition hj
  · exact ⟨by simp, .of_inline inline_nil⟩
  · exact ⟨by simp, .of_inline inline_nil⟩

theorem governs_out (h : classify s t v lx line = .ok c) : v.newline.Governs c.out := by
  obtain ⟨lk, w, -, hc⟩ := classify_eq_ok_iff.mp h
  rcases hc with ⟨-, rfl⟩ | ⟨-, -, -, lx', -, rfl⟩ | ⟨-, j, lx', d, hj, -, rfl⟩
  · exact .of_inline inline_nil
  · exact .of_inline inline_nil
  · obtain ⟨hnames, hnote⟩ := said_of_judge hj
    refine ((governs_listNames hnames).append hnote).append ?_
    split
    · exact governs_note (by decide)
    · exact .of_inline inline_nil

theorem governs_classified (h : classify s t v lx line = .ok c) (hl : v.newline.Governs line) :
    v.newline.Governs c.line := by
  rcases line_of_classify h with ⟨-, hline⟩ | ⟨-, -, hline⟩
  · rwa [hline]
  · rw [hline]
    exact hl.append (.chars _)

/-! ## Lines -/

theorem kind_of_edit {permit : Bool} {here : Option Phase} {kind : LineKind} {turn : Turn} {e : Edit}
    (h : kind.turn permit here = .ok turn) (he : turn.edit = some e) : ∃ d dodgy, kind = .directive d dodgy := by
  cases kind with
  | directive d dodgy => exact ⟨d, dodgy, rfl⟩
  | plain =>
    cases h
    cases he
  | _ => cases h

theorem elif_line {x : Truth} {dodgy : Bool} (h : classify s t v lx line = .ok c)
    (hk : c.kind = .directive (.elif x) dodgy) :
    ∃ p u, c.line = p ++ "elif".toList ++ u ∧ c.keyword = p.length := by
  obtain ⟨p, w, lk, rfl, -, -, hkw, helif, -, hline⟩ := keyword_of_classify h hk
  obtain ⟨u, rfl⟩ := helif x rfl
  rcases hline with hline | ⟨-, hline⟩
  · exact ⟨p, u, by rw [hline, List.append_assoc], hkw⟩
  · exact ⟨p, u ++ v.newline.chars, by simp [hline], hkw⟩

theorem governs_text {turn : Turn} {permit : Bool} {here : Option Phase} {cur : Current}
    (h : classify s t v lx line = .ok c) (hl : v.newline.Governs line) (ht : c.kind.turn permit here = .ok turn)
    (hline : cur.line = c.line) (hkw : cur.keyword = c.keyword) (hnl : cur.newline = v.newline) :
    v.newline.Governs (turn.text cur) := by
  have hc := governs_classified h hl
  unfold Turn.text
  cases he : turn.edit with
  | none => simpa [hline] using hc
  | some e =>
    -- What stands before the keyword is a part of the line.
    have hcut : v.newline.Governs (c.line.take c.keyword) := by
      rw [← List.take_append_drop c.keyword c.line] at hc
      exact hc.front
    cases e with
    | toElse =>
      simp only [Edit.apply, hline, hkw, hnl]
      exact (hcut.append (.of_inline (by decide))).append (.chars _)
    | toEndif =>
      simp only [Edit.apply, hline, hkw, hnl]
      exact (hcut.append (.of_inline (by decide))).append (.chars _)
    | toIf =>
      obtain ⟨d, dodgy, hk⟩ := kind_of_edit ht he
      rw [hk] at ht
      obtain ⟨x, rfl⟩ := elif_of_toIf ht he
      obtain ⟨p, u, hword, hlen⟩ := elif_line h hk
      rw [hword] at hc
      have hdrop : (p ++ "elif".toList ++ u).drop (p.length + 4) = u := by
        rw [List.append_assoc, List.drop_length_add_append]
        rfl
      simp only [Edit.apply, hline, hkw, hword, hlen, hdrop]
      rw [List.append_assoc p, List.take_left]
      exact hc.reword (by decide) (by decide) (by decide)

theorem governs_flush {n : Nat} {keep : Bool} {w : Writer} (hfile : ∀ f, s.lineFile = some f → nl.Governs f.toList)
    (hl : nl.Governs line) : nl.Governs (w.flush s nl n keep line).2 := by
  unfold Writer.flush
  split
  · exact .of_inline inline_nil
  · split
    · split
      · exact .of_inline inline_nil
      · refine .append ?_ hl
        split
        · exact governs_lineMarker hfile
        · exact .of_inline inline_nil
    · unfold Writer.drop
      simp only
      split
      · exact .chars nl
      · exact .of_inline inline_nil

/-! ## Runs -/

variable {r : Run} {ls : List Chars} {st : Step} (hfile : ∀ f, s.lineFile = some f → nl.Governs f.toList)
include hfile

theorem governs_advance (h : r.advance s t line = .ok st) (hnl : r.newlineAt line = nl) (hl : nl.Governs line) :
    nl.Governs st.out := by
  obtain ⟨p, hp, hst⟩ := bind_eq_ok.mp h
  obtain ⟨c, hc, he⟩ := bind_eq_ok.mp hp
  cases he
  obtain ⟨m, hm, he⟩ := bind_eq_ok.mp hst
  cases he
  obtain ⟨turn, stack, ht, -, rfl⟩ := (Machine.step_eq_ok_iff (kind_ne_eof_of_classify hc)).mp hm
  subst hnl
  have htext : (r.newlineAt line).Governs (turn.text (r.current line c)) := governs_text hc hl ht rfl rfl rfl
  have hout : (r.newlineAt line).Governs c.out := governs_out hc
  exact hout.append ((governs_flush hfile htext).append governs_report)

theorem governs_finish (h : (r.finish s).failure = none) (hnl : r.newline.getD .lf = nl) :
    nl.Governs (r.finish s).text := by
  have hout : ∀ last, r.readEnd.step s = .ok last → nl.Governs last.out := by
    intro last hlast
    obtain ⟨m, hm, he⟩ := bind_eq_ok.mp hlast
    cases he
    unfold Machine.step at hm
    split at hm
    · cases hm
    · rename_i m' hend
      cases hm
      have hend : Machine.atEnd s r.readEnd.current r.machine = .ok m' := hend
      unfold Machine.atEnd at hend
      repeat' split at hend
      all_goals cases hend
      subst hnl
      exact (Newline.Governs.of_inline inline_nil).append ((governs_closeListing _).append governs_report)
  unfold Run.finish at h ⊢
  split
  · rename_i hlast
    rw [hlast] at h
    cases h
  · rename_i last hlast
    simpa [Trace.text] using hout last hlast

theorem governs_trace (hp : Physical ls) (hl : nl.Governs ls.flatten) (hf : (r.trace s t ls).failure = none)
    (hnl : r.newline = some nl ∨ r.newline = none ∧ (ls.head?.map .ofLine).getD .lf = nl) :
    nl.Governs (r.trace s t ls).text := by
  induction ls generalizing r with
  | nil =>
    refine governs_finish hfile hf ?_
    rcases hnl with h | ⟨h, hnl⟩
    · simp [h]
    · simpa [h] using hnl
  | cons line ls ih =>
    obtain ⟨st, hadv⟩ := advance_of_trace hf
    have hline : r.newlineAt line = nl := by
      rcases hnl with h | ⟨h, hnl⟩
      · simp [Run.newlineAt, h]
      · simpa [Run.newlineAt, h] using hnl
    rw [trace_of_advance hadv] at hf ⊢
    rw [text_cons]
    rw [List.flatten_cons] at hl
    refine (governs_advance hfile hadv hline hl.front).append (ih hp.tail ?_ hf (.inl ?_))
    · rcases hp with ⟨⟨body, -, rfl⟩, -⟩ | ⟨rfl, -⟩
      · exact hl.behind (by simp)
      · exact .of_inline inline_nil
    · rw [newline_of_advance hadv, hline]

end

/-- The first line shows the convention, unless it is CR LF and there is no newline to show it. -/
theorem Newline.Governs.head {nl : Newline} {ls : List Chars} (hl : nl.Governs ls.flatten) (hp : Physical ls)
    (hcrlf : nl = .crlf → '\n' ∈ ls.flatten) : (ls.head?.map .ofLine).getD .lf = nl := by
  cases nl with
  | lf =>
    cases ls with
    | nil => rfl
    | cons line ls =>
      have hline : ¬ ['\r', '\n'] <:+ line := by
        intro hsuffix
        exact hl (by simp [hsuffix.subset (by simp : '\r' ∈ ['\r', '\n'])])
      simpa [Newline.ofLine] using hline
  | crlf =>
    cases ls with
    | nil => simp at hcrlf
    | cons line ls =>
      rcases hp with ⟨⟨body, -, rfl⟩, -⟩ | ⟨rfl, -, hn⟩
      · have hcr : body.getLast? = some '\r' := hl body ls.flatten (by simp)
        obtain ⟨body, rfl⟩ := List.getLast?_eq_some_iff.mp hcr
        simp [Newline.ofLine]
      · simp [hn] at hcrlf

/-- A source with the newlines of one convention is resolved to a text with no others: if all its newlines are CR LF
and there is one, and if there is no CR. -/
theorem newlines_kept {s : Settings} {symbols : List Symbol} {script source : Chars} {out : Resolved}
    (h : resolve s symbols script source = .ok out) :
    ((∀ p r, source = p ++ '\n' :: r → p.getLast? = some '\r') → '\n' ∈ source →
        (∀ f, s.lineFile = some f → '\n' ∉ f.toList) → ∀ p r, out.text = p ++ '\n' :: r → p.getLast? = some '\r') ∧
      ('\r' ∉ source → (∀ f, s.lineFile = some f → '\r' ∉ f.toList) → '\r' ∉ out.text) := by
  obtain ⟨t, -, -, hresolved⟩ := resolve_eq_ok_iff.mp h
  obtain ⟨hf, rfl⟩ := resolved_eq_ok_iff.mp hresolved
  have hp := physical_lines source
  have hsource := flatten_lines source
  constructor
  · intro hcrlf hmem hfile
    have hl : Newline.crlf.Governs (lines source).flatten := by rwa [hsource]
    have hname : ∀ f, s.lineFile = some f → Newline.crlf.Governs f.toList := by
      intro f hf p r he
      exact absurd (he ▸ by simp) (hfile f hf)
    exact governs_trace hname hp hl hf (.inr ⟨rfl, hl.head hp fun _ => by rwa [hsource]⟩)
  · intro hlf hfile
    have hl : Newline.lf.Governs (lines source).flatten := by rwa [hsource]
    have hname : ∀ f, s.lineFile = some f → Newline.lf.Governs f.toList := hfile
    exact governs_trace hname hp hl hf (.inr ⟨rfl, hl.head hp nofun⟩)

def innerGroup (nl : Newline) : Chars :=
  ["#ifdef A", "#ifdef S", "#endif"].flatMap (fun l => l.toList ++ nl.chars) ++ "#endif".toList

theorem governs_innerGroup (nl : Newline) : nl.Governs (innerGroup nl) := by
  have hlines : ∀ l ∈ ["#ifdef A", "#ifdef S", "#endif"], Inline l.toList := by decide
  exact .append (.flatMap fun l hl => .append (.of_inline (hlines l hl)) (.chars nl)) (.of_inline (by decide))

theorem newlines_kept_innerGroup :
    (∃ text, resolve { blankPlaceholders := true, lineFile := some "a.c" } [⟨"S", none, false⟩] []
        (innerGroup .crlf) = .ok ⟨text, true⟩ ∧ ∀ p r, text = p ++ '\n' :: r → p.getLast? = some '\r') ∧
    ∃ text, resolve { lineMarkers := true, lineFile := some "a.c" } [⟨"S", none, false⟩] []
        (innerGroup .lf) = .ok ⟨text, true⟩ ∧ '\r' ∉ text := by
  have hfile : ∀ f, some "a.c" = some f → '\n' ∉ f.toList ∧ '\r' ∉ f.toList := by
    rintro f ⟨⟩
    decide
  have hcrlf : resolve { blankPlaceholders := true, lineFile := some "a.c" } [⟨"S", none, false⟩] []
      (innerGroup .crlf) = .ok ⟨"#ifdef A\r\n\r\n\r\n#endif\r\n".toList, true⟩ := by
    have hsource : innerGroup .crlf = "#ifdef A\r\n#ifdef S\r\n#endif\r\n#endif".toList := by decide
    rw [hsource]
    cbv
  have hlf : resolve { lineMarkers := true, lineFile := some "a.c" } [⟨"S", none, false⟩] []
      (innerGroup .lf) = .ok ⟨"#ifdef A\n#line 4 \"a.c\"\n#endif\n".toList, true⟩ := by
    have hsource : innerGroup .lf = "#ifdef A\n#ifdef S\n#endif\n#endif".toList := by decide
    rw [hsource]
    cbv
  exact ⟨⟨_, hcrlf, (newlines_kept hcrlf).1 (governs_innerGroup .crlf) (by decide) fun f hf => (hfile f hf).1⟩,
    ⟨_, hlf, (newlines_kept hlf).2 (governs_innerGroup .lf) fun f hf => (hfile f hf).2⟩⟩

end CondResolve
