import CondResolve.Proofs.Limits
import CondResolve.Proofs.Newlines

/-!
# The names that a listing has of a condition

In a listing nothing is known of any symbol, and a condition is evaluated all the same. A division by something that
is not known, or a shift too far, ends the evaluation, and names behind it are not heard. `list_condition` says
which names are listed.
-/

namespace CondResolve

/-! ## Names heard -/

namespace Condition

section
variable (strict : Bool) (k : Knowledge)

def heard : Condition → List String
  | .number _ => []
  | .symbol x | .defined x _ => [x.name]
  | .unary _ e => e.heard
  | .binary _ l r =>
    match l.meaning strict k with
    | .ok _ => l.heard ++ r.heard
    | .error _ => l.heard

end

section
variable {strict : Bool} {k : Knowledge} {op : BinaryOp} {e l r : Condition} {m : Meaning} {f : Fault}

theorem heard_binary_of_ok (h : l.meaning strict k = .ok m) :
    (binary op l r).heard strict k = l.heard strict k ++ r.heard strict k := by
  simp only [heard, h]

theorem heard_binary_of_error (h : l.meaning strict k = .error f) :
    (binary op l r).heard strict k = l.heard strict k := by
  simp only [heard, h]

theorem heard_of_meaning (h : e.meaning strict k = .ok m) : e.heard strict k = e.names := by
  induction e generalizing m with
  | unary op e ih =>
    obtain ⟨a, ha, -⟩ := meaning_unary_eq_ok.1 h
    exact ih ha
  | binary op l r ihl ihr =>
    obtain ⟨a, b, hl, hr, -⟩ := meaning_binary_eq_ok.1 h
    rw [heard_binary_of_ok hl, ihl hl, ihr hr]
    rfl
  | _ => rfl

theorem heard_starts_names (e : Condition) : e.heard strict k <+: e.names := by
  induction e with
  | unary op e ih => exact ih
  | binary op l r ihl ihr =>
    cases hl : l.meaning strict k with
    | error f =>
      rw [heard_binary_of_error hl]
      exact ihl.trans (List.prefix_append ..)
    | ok m =>
      rw [heard_binary_of_ok hl, heard_of_meaning hl]
      exact (List.prefix_append_right_inj _).2 ihr
  | _ => exact List.prefix_rfl

theorem heard_eq_append_iff {e : Condition} {names : List String} :
    e.heard strict k = e.names ++ names ↔ e.heard strict k = e.names ∧ names = [] := by
  constructor
  · intro h
    have hle : (e.heard strict k).length ≤ e.names.length := e.heard_starts_names.length_le
    rw [h, List.length_append] at hle
    have hnil : names = [] := List.length_eq_zero_iff.1 (by omega)
    rw [h, hnil, List.append_nil]
    exact ⟨rfl, rfl⟩
  · rintro ⟨h, rfl⟩
    rw [h, List.append_nil]

theorem names_of_part {x : Condition} (hx : x ∈ e.parts) (he : e.names = []) : x.names = [] := by
  induction e with
  | unary op e ih =>
    rcases List.mem_cons.1 hx with rfl | hx
    · exact he
    · exact ih hx he
  | binary op l r ihl ihr =>
    obtain ⟨hl, hr⟩ := List.append_eq_nil_iff.1 he
    rcases mem_parts_binary.1 hx with rfl | hx | hx
    · exact he
    · exact ihl hx hl
    · exact ihr hx hr
  | _ =>
    obtain rfl := List.mem_singleton.1 hx
    exact he

/-- All names are heard exactly if a fault in a left operand has no names to its right. -/
theorem heard_eq_names_iff (e : Condition) : e.heard strict k = e.names ↔
    ∀ op l r, .binary op l r ∈ e.parts → (∃ x ∈ l.parts, Fails strict k x) → r.names = [] := by
  induction e with
  | unary op e ih => simpa [heard, names, parts] using ih
  | binary op l r ihl ihr =>
    cases hl : l.meaning strict k with
    | ok m =>
      rw [heard_binary_of_ok hl, heard_of_meaning hl]
      have hfine : ¬ ∃ x ∈ l.parts, Fails strict k x := by
        rw [← meaning_eq_error_iff, hl]
        simp
      constructor
      · intro h op' l' r' hx hf
        rcases mem_parts_binary.1 hx with he | hx | hx
        · cases he
          exact absurd hf hfine
        · exact ihl.1 (heard_of_meaning hl) op' l' r' hx hf
        · exact ihr.1 (List.append_cancel_left h) op' l' r' hx hf
      · intro h
        have hr := ihr.2 fun op' l' r' hx => h op' l' r' (mem_parts_binary.2 (.inr (.inr hx)))
        rw [hr]
        rfl
    | error f =>
      -- The evaluation ends in the left operand, so that the names to the right are missed.
      rw [heard_binary_of_error hl]
      have hfails : ∃ x ∈ l.parts, Fails strict k x := (meaning_eq_error_iff l).1 ⟨f, hl⟩
      constructor
      · intro h op' l' r' hx hf
        obtain ⟨hleft, hnil⟩ := heard_eq_append_iff.1 h
        rcases mem_parts_binary.1 hx with he | hx | hx
        · cases he
          exact hnil
        · exact ihl.1 hleft op' l' r' hx hf
        · exact (List.append_eq_nil_iff.1 (names_of_part hx hnil)).2
      · intro h
        have hleft := ihl.2 fun op' l' r' hx => h op' l' r' (mem_parts_binary.2 (.inr (.inl hx)))
        exact heard_eq_append_iff.2 ⟨hleft, h op l r (mem_parts_binary.2 (.inl rfl)) hfails⟩
  | _ => simp [heard, names, parts]

end

end Condition

/-- An instruction without names adds none. -/
theorem mentioned_run_snoc {strict : Bool} {k : Knowledge} (ev : Evaluation) (p : List Instr) {i : Instr}
    (hi : i.names = []) : (ev.run k strict (p ++ [i])).1.mentioned = (ev.run k strict p).1.mentioned := by
  rw [Evaluation.run_append]
  split
  · rename_i e' hp
    obtain ⟨names, hnames, hpre⟩ := mentioned_run k strict e' [i]
    have hnil : names = [] := by simpa [hi] using hpre
    rw [hnames, hnil, List.append_nil, hp]
  · rfl

/-- The code of a condition mentions the names that are heard. -/
theorem mentioned_run_coded (strict : Bool) (k : Knowledge) {A : Demand → Prop} {lx ly : Lexical}
    {e : Condition} {deep : Nat} {code : List Instr} (hc : e.Coded A lx ly deep code) (ev : Evaluation) :
    (ev.run k strict code).1.mentioned = ev.mentioned ++ e.heard strict k := by
  induction hc generalizing ev with
  | number => simp [Evaluation.run, Evaluation.step, Evaluation.push, Condition.heard]
  | symbol x =>
    simp only [Evaluation.run, Evaluation.step, Condition.heard]
    cases Evaluation.valueOf k x.name <;> rfl
  | defined x paren => rfl
  | unary _ _ ih => exact (mentioned_run_snoc ev _ rfl).trans ((mentioned_run_snoc ev _ rfl).trans (ih ev))
  | parens _ _ ih => exact (mentioned_run_snoc ev _ rfl).trans (ih ev)
  | @binary op l r deep p q lz hcl hcr _ ihl ihr =>
    refine (mentioned_run_snoc ev _ rfl).trans ?_
    cases hl : l.meaning strict k with
    | ok m =>
      rw [Condition.heard_binary_of_ok hl, ← List.append_assoc, ← ihl ev, Evaluation.run_append]
      rw [run_coded hcl hl]
      exact ihr _
    | error f =>
      obtain ⟨lf, -, hrun⟩ := run_coded_fault hcl hl ev
      rw [Condition.heard_binary_of_error hl, ← ihl ev, Evaluation.run_append]
      split
      · rename_i hp
        rw [hp] at hrun
        cases hrun
      · rfl

/-! ## The line of a condition -/

section
variable {s : Settings} {t : Table} {v : View} {verbatim : Bool} {lx : Lexical} {A : Demand → Prop}
  {e : Condition} {least deep : Nat} {cs rest : Chars} {nl : Newline}

theorem Condition.Spelled.inline (h : e.Spelled A least deep cs) : Inline cs := by
  have word : ∀ {w : Chars}, (∀ c ∈ w, isSymbolChar c = true) → Inline w := by
    intro w hw
    refine inline_of_forall fun c hc => ?_
    have hsymbol := ne_of_isSymbolChar (hw c hc)
    exact ⟨hsymbol.2.2.2.2.1, hsymbol.2.2.2.1⟩
  induction h with
  | number _ _ _ hd => exact word fun c hc => isSymbolChar_of_isDigit (hd c hc)
  | symbol x => exact word x.symbolChar
  | defined x => exact inline_append.2 ⟨by decide, word x.symbolChar⟩
  | definedParen x => exact inline_append.2 ⟨inline_append.2 ⟨by decide, word x.symbolChar⟩, by decide⟩
  | @unary op _ _ _ _ _ _ ih => cases op <;> simp [UnaryOp.char, ih]
  | @binary op _ _ _ _ _ _ _ _ _ ihl ihr =>
    have hop : Inline op.chars := by cases op <;> decide
    simp [ihl, ihr, hop]
  | parens _ _ _ _ ih => simp [ih]

theorem Condition.Spelled.ne_nil (h : e.Spelled A least deep cs) : cs ≠ [] := by
  cases h with
  | number _ _ hne => exact hne
  | symbol x => exact x.ne_nil
  | _ => simp

section
variable (hm : lx.mode = .code)
include hm

/-- The text of a condition starts with code. -/
theorem skip_spelled (h : e.Spelled A least deep cs) (hq : rest.head? ≠ some '"') :
    skip verbatim lx (cs ++ rest) = .ok (lx, cs ++ rest) := by
  induction h generalizing rest with
  | number _ _ hne hd => exact skip_word_append hm hne (fun c hc => isSymbolChar_of_isDigit (hd c hc)) hq
  | symbol x => exact skip_word_append hm x.ne_nil x.symbolChar hq
  | defined x =>
    have hskip : skip verbatim lx ("defined".toList ++ ' ' :: (x.chars ++ rest)) = .ok (lx, _) :=
      skip_word_append hm (by decide) symbolChar_defined (by simp)
    simpa using hskip
  | definedParen x =>
    have hskip : skip verbatim lx ("defined".toList ++ '(' :: (x.chars ++ ')' :: rest)) = .ok (lx, _) :=
      skip_word_append hm (by decide) symbolChar_defined (by simp)
    simpa using hskip
  | unary => exact skip_unary hm _ _
  | @binary op _ _ _ _ _ ds _ _ _ ihl =>
    have hskip := @ihl (' ' :: op.chars ++ ' ' :: (ds ++ rest)) (by simp)
    simpa using hskip
  | parens => exact skip_paren hm

theorem drain_word {w : Chars} (hw : ∀ c ∈ w, isSymbolChar c = true) (hq : rest.head? ≠ some '"') :
    drain verbatim lx (w ++ rest) = drain verbatim lx rest :=
  drain_symbolChars hm hw fun _ u hu => hq (by rw [hu]; rfl)

theorem drain_space : drain verbatim lx (' ' :: rest) = drain verbatim lx rest :=
  drain_congr (skip_space (by simp [hm, Mode.isSplit]))

theorem drain_operator (op : BinaryOp) :
    drain verbatim lx (op.chars ++ ' ' :: rest) = drain verbatim lx (' ' :: rest) := by
  have hskip : skip verbatim lx (op.chars ++ ' ' :: rest) = .ok (lx, op.chars ++ ' ' :: rest) :=
    skip_operator hm op rest
  obtain ⟨m, l⟩ := lx
  cases hm
  cases op
  case or | and | eq | ne | le | ge | shiftLeft | shiftRight =>
    exact (drain_next hskip).trans (drain_next (skip_stop rfl rfl))
  all_goals exact drain_next hskip

/-- To the end of the line a condition is read like code in which nothing starts. -/
theorem drain_spelled (h : e.Spelled A least deep cs) (hq : rest.head? ≠ some '"') :
    drain verbatim lx (cs ++ rest) = drain verbatim lx rest := by
  induction h generalizing rest with
  | number _ _ hne hd => exact drain_word hm (fun c hc => isSymbolChar_of_isDigit (hd c hc)) hq
  | symbol x => exact drain_word hm x.symbolChar hq
  | defined x =>
    calc drain verbatim lx ("defined ".toList ++ x.chars ++ rest)
      _ = drain verbatim lx ("defined".toList ++ ' ' :: (x.chars ++ rest)) := by simp
      _ = drain verbatim lx (x.chars ++ rest) := by
        rw [drain_word hm symbolChar_defined (by simp), drain_space hm]
      _ = drain verbatim lx rest := drain_word hm x.symbolChar hq
  | definedParen x =>
    calc drain verbatim lx ("defined(".toList ++ x.chars ++ [')'] ++ rest)
      _ = drain verbatim lx ("defined".toList ++ '(' :: (x.chars ++ ')' :: rest)) := by simp
      _ = drain verbatim lx (x.chars ++ ')' :: rest) := by
        rw [drain_word hm symbolChar_defined (by simp), drain_next (skip_paren hm)]
      _ = drain verbatim lx rest := by
        rw [drain_word hm x.symbolChar (by simp), drain_next (skip_close hm rest)]
  | @unary op _ cs _ _ _ _ ih =>
    rw [List.cons_append, drain_next (skip_unary hm op _)]
    exact ih hq
  | @binary op _ _ _ _ cs ds _ _ _ ihl ihr =>
    calc drain verbatim lx (cs ++ ' ' :: op.chars ++ ' ' :: ds ++ rest)
      _ = drain verbatim lx (cs ++ ' ' :: (op.chars ++ ' ' :: (ds ++ rest))) := by simp
      _ = drain verbatim lx (op.chars ++ ' ' :: (ds ++ rest)) := by rw [ihl (by simp), drain_space hm]
      _ = drain verbatim lx (ds ++ rest) := by rw [drain_operator hm, drain_space hm]
      _ = drain verbatim lx rest := ihr hq
  | @parens _ cs _ _ _ _ ih =>
    calc drain verbatim lx ('(' :: cs ++ [')'] ++ rest)
      _ = drain verbatim lx ('(' :: (cs ++ ')' :: rest)) := by simp
      _ = drain verbatim lx (cs ++ ')' :: rest) := drain_next (skip_paren hm)
      _ = drain verbatim lx rest := by rw [ih (by simp), drain_next (skip_close hm rest)]

theorem evaluate_spelled (s : Settings) (verbatim : Bool) (k : Knowledge) (nl : Newline) (h : e.Spelled A 0 0 cs) :
    (evaluate s verbatim k lx (' ' :: (cs ++ nl.chars))).mentioned = e.heard s.strictLogic k ∧
      ((∃ a, (evaluate s verbatim k lx (' ' :: (cs ++ nl.chars))).result = .ok (a, {}, [])) ∨
        ∃ f lf, lf.mode = .code ∧
          (evaluate s verbatim k lx (' ' :: (cs ++ nl.chars))).result = .error (.fault f lf)) := by
  obtain ⟨code, hc, hclimb⟩ : ∃ code, e.Coded A lx {} 0 code ∧
      climb verbatim 0 lx (' ' :: (cs ++ nl.chars)) = .done code {} [] :=
    climb_spelled hm h (.inr rfl) (.newline hm nl)
  have hnames : (Evaluation.run k s.strictLogic {} code).1.mentioned = e.heard s.strictLogic k := by
    simpa using mentioned_run_coded s.strictLogic k hc {}
  unfold evaluate
  rw [hclimb]
  refine ⟨hnames, ?_⟩
  cases hmean : e.meaning s.strictLogic k with
  | ok m =>
    simp only [Reading.done, run_coded hc hmean]
    exact .inl ⟨_, rfl⟩
  | error f =>
    obtain ⟨lf, hf, hrun⟩ := run_coded_fault hc hmean {}
    refine .inr ⟨f, lf, ?_, by simp only [Reading.done, hrun]⟩
    rcases hf with rfl | rfl
    · exact hm
    · rfl

end

theorem lineDemands_endif (nl : Newline) : lineDemands s t v {} (endifLine nl) = [] := by
  have hfind : findKeyword v.verbatim {} (endifLine nl) = .ok (⟨.code, .hash⟩, _) :=
    findKeyword_hash ⟨'e', _, rfl, rfl, by decide⟩
  rw [lineDemands, hfind]
  rfl

/-- A condition about symbols of which nothing is known asks for what its spelling does. -/
theorem demands_spelled (s : Settings) (verbatim : Bool) (nl : Newline)
    (hm : lx.mode = .code) (h : e.Spelled A 0 0 cs) :
    ∀ d ∈ demands s verbatim .none lx (' ' :: (cs ++ nl.chars)), A d := by
  obtain ⟨code, hc, hclimb⟩ : ∃ code, e.Coded A lx {} 0 code ∧
      climb verbatim 0 lx (' ' :: (cs ++ nl.chars)) = .done code {} [] :=
    climb_spelled hm h (.inr rfl) (.newline hm nl)
  intro d hd
  unfold demands at hd
  rw [hclimb] at hd
  exact (asked_coded hc fun x _ d hx => by cases hx).1 d (demands_starts_asked.subset hd)

theorem judge_spelled (s : Settings) (t : Table) (v : View) (nl : Newline) (h : e.Spelled A 0 0 cs) :
    ∃ j x, judge s t v ⟨.code, .hash⟩ ("if".toList ++ ' ' :: (cs ++ nl.chars)) = .ok (some j) ∧
      finish v j = .ok ({}, .opening x) ∧ j.names = e.heard s.strictLogic (View.knowledge s t) ∧
      (s.debug = false → j.note = []) := by
  have hq : nl.chars.head? ≠ some '"' := by cases nl <;> simp [Newline.chars]
  have hm : (Lexical.mk .code .hash).mode = .code := rfl
  rw [judge_if]
  unfold judgeCondition
  obtain ⟨hnames, ⟨a, hres⟩ | ⟨f, lf, hmode, hres⟩⟩ :=
    evaluate_spelled hm s v.verbatim (View.knowledge s t) nl h
  · simp only [hres, hnames]
    refine ⟨_, _, rfl, finish_eq_ok_iff.mpr ⟨{}, [], skip_nil _, .inl ⟨rfl, rfl, rfl⟩⟩, rfl, fun _ => rfl⟩
  · simp only [hres, hnames]
    obtain ⟨m, l⟩ := lf
    cases hmode
    -- the condition is left unread, so the rest of the line is
    have hne := h.ne_nil
    have hskip : skip v.verbatim ⟨.code, l⟩ (cs ++ nl.chars) = .ok (⟨.code, l⟩, cs ++ nl.chars) :=
      skip_spelled rfl h hq
    have hspace : skip v.verbatim ⟨.code, l⟩ (' ' :: (cs ++ nl.chars)) = .ok (⟨.code, l⟩, cs ++ nl.chars) :=
      (skip_space rfl).trans hskip
    have hline : skipLine v.verbatim ⟨.code, l⟩ (cs ++ nl.chars) = .ok {} := by
      have hdrain : drain v.verbatim ⟨.code, .dirty⟩ (cs ++ nl.chars) = .ok {} :=
        (drain_spelled rfl h hq).trans (drain_done (skip_lineEnd rfl nl))
      unfold skipLine
      rw [if_neg (by simp [hne])]
      exact hdrain
    refine ⟨_, .unknown, rfl, finish_eq_ok_iff.mpr ⟨_, _, hspace, .inr ⟨by simp [hne], hline, rfl⟩⟩, rfl, ?_⟩
    intro hdebug
    simp [note, hdebug]

theorem classify_hash {w : Chars} {j : Judged} {d : Directive} (hw : StartsWord w)
    (hj : judge s t v ⟨.code, .hash⟩ w = .ok (some j)) (hf : finish v j = .ok ({}, d)) :
    ∃ c, classify s t v {} ('#' :: w) = .ok c ∧ c.kind = .directive d false ∧ c.lex = {} ∧ c.altered = false ∧
      c.out = listNames s v.newline v.depth true v.listed j.names ++ j.note := by
  have hne : w ≠ [] := by
    obtain ⟨a, u, rfl, -⟩ := hw
    simp
  refine ⟨_, classify_eq_ok_iff.mpr ⟨_, _, findKeyword_hash hw, .inr (.inr ⟨hne, j, {}, d, hj, hf, rfl⟩)⟩, ?_⟩
  simp [settleLine]

end

/-! ## The listing -/

/-- The step `st` of the run `r` lists `names`, and leaves the cursor at the start of a line. -/
structure Lists (s : Settings) (nl : Newline) (r : Run) (names : List String) (st : Step) : Prop where
  out : ∃ notes, st.out = names.flatMap (fun name => name.toList ++ nl.chars) ++ notes ∧
    (s.debug = false → notes = [])
  lex : st.run.lex = {}
  altered : st.run.altered = r.altered

def ifLine (cs : Chars) (nl : Newline) : Chars := "#if ".toList ++ cs ++ nl.chars

section
variable {s : Settings} (hlist : s.symbolList = true) (hdepth : s.symbolDepth = false) {t : Table} {nl : Newline}
  {r : Run} {e : Condition} {cs : Chars}
include hlist hdepth

/-- A directive lists the names in it, and neither it nor anything else is written. -/
theorem advance_hash {w : Chars} {j : Judged} {d : Directive} {turn : Turn} {stack : Stack} (hw : StartsWord w)
    (hr : r.lex = {}) (hj : judge s t (r.view s ('#' :: w)) ⟨.code, .hash⟩ w = .ok (some j))
    (hf : finish (r.view s ('#' :: w)) j = .ok ({}, d)) (hnote : s.debug = false → j.note = [])
    (ht : d.turn s.permitObfuscated r.machine.stack.phase? false = .ok turn) (hedit : turn.edit = none)
    (hs : turn.shift.apply (r.number + 1) r.machine.stack = .ok stack) :
    ∃ st, r.advance s t ('#' :: w) = .ok st ∧ Lists s (r.newlineAt ('#' :: w)) r j.names st ∧
      st.run.machine.stack = stack := by
  have hl : s.listing = true := by simp [Settings.listing, hlist]
  obtain ⟨c, hc, hk, hlex, halt, hout⟩ := classify_hash hw hj hf
  have hc' : classify s t (r.view s ('#' :: w)) r.lex ('#' :: w) = .ok c := by
    rw [hr]
    exact hc
  have ht' : c.kind.turn s.permitObfuscated r.machine.stack.phase? = .ok turn := by
    rw [hk]
    exact ht
  have hnames : c.out = j.names.flatMap (fun name => name.toList ++ (r.newlineAt ('#' :: w)).chars) ++ j.note := by
    rw [hout, listNames, hdepth, hlist]
    rfl
  refine ⟨_, advance_eq_of_turn hc' ht' hs, ⟨?_, hlex, ?_⟩, rfl⟩
  · refine ⟨_, (congrArg (· ++ _) hnames).trans (List.append_assoc ..), fun hd => ?_⟩
    simp [hnote hd, Run.written, Writer.flush, hl, Machine.report, note, hd]
  · simp [Run.altered, Machine.turned, Machine.flushed, Writer.flush, hl, Run.seen, halt, hedit]

/-- The line of a condition lists the names that are heard, however it is spelled. -/
theorem advance_if (he : e.Spelled A 0 0 cs) (t : Table) (nl : Newline) :
    ∃ st x, Run.advance s t {} (ifLine cs nl) = .ok st ∧ Lists s nl {} (e.heard s.strictLogic .none) st ∧
      st.run.machine.stack = [⟨Truth.branch x, false, 1⟩] := by
  have hknow : View.knowledge s t = .none := by simp [View.knowledge, Settings.listing, hlist]
  have hnl : Run.newlineAt {} (ifLine cs nl) = nl := by
    refine ofLine_append ?_ nl
    intro c hc
    rw [List.getLast?_append_of_ne_nil _ he.ne_nil] at hc
    rintro rfl
    exact he.inline.2 (List.mem_of_getLast? hc)
  obtain ⟨j, x, hj, hf, hnames, hnote⟩ := judge_spelled s t (Run.view s {} (ifLine cs nl)) nl he
  have hturn : Directive.turn s.permitObfuscated none (.opening x) false =
      .ok ⟨x = .unknown, .enter x.branch false, none⟩ := by
    cases x <;> rfl
  obtain ⟨st, hadv, hlists, hstack⟩ :=
    advance_hash hlist hdepth ⟨'i', _, rfl, rfl, by decide⟩ rfl hj hf hnote hturn rfl rfl
  rw [hnames, hknow] at hlists
  exact ⟨st, x, hadv, hnl ▸ hlists, hstack⟩

theorem advance_endif (t : Table) (nl : Newline) (hr : r.lex = {}) {x : Truth}
    (hstack : r.machine.stack = [⟨x.branch, false, 1⟩]) :
    ∃ st, r.advance s t (endifLine nl) = .ok st ∧ Lists s (r.newlineAt (endifLine nl)) r [] st ∧
      st.run.machine.stack = [] := by
  have hf : ∀ v, finish v ⟨.closing, ⟨.code, .hash⟩, nl.chars, [], []⟩ = .ok ({}, .closing) :=
    fun v => finish_eq_ok_iff.mpr ⟨{}, [], skip_lineEnd rfl nl, .inl ⟨rfl, rfl, rfl⟩⟩
  have hturn : Directive.turn s.permitObfuscated r.machine.stack.phase? .closing false =
      .ok ⟨x = .unknown, .leave, none⟩ := by
    rw [hstack]
    cases x <;> rfl
  exact advance_hash hlist hdepth ⟨'e', _, rfl, rfl, by decide⟩ hr (judge_endif (endsSymbol_newline nl)) (hf _)
    (fun _ => rfl) hturn rfl (by rw [hstack]; rfl)

theorem trace_listed (he : e.Spelled A 0 0 cs) (t : Table) (nl : Newline) :
    ∃ notes, (Run.trace s t {} [ifLine cs nl, endifLine nl]).resolved =
        .ok ⟨(e.heard s.strictLogic .none).flatMap (fun name => name.toList ++ nl.chars) ++ notes, false⟩ ∧
      (s.debug = false → notes = []) := by
  obtain ⟨st, x, hadv, ⟨⟨notes, hout, hquiet⟩, hlex, halt⟩, hstack⟩ := advance_if hlist hdepth he t nl
  obtain ⟨st', hadv', ⟨⟨notes', hout', hquiet'⟩, hlex', halt'⟩, hstack'⟩ :=
    advance_endif hlist hdepth t nl hlex hstack
  have hend := finish_eq_of_complete (s := s) (r := st'.run) ⟨hstack', by rw [hlex']; rfl⟩
  have htrace : Run.trace s t {} [ifLine cs nl, endifLine nl] = ⟨st :: st' :: (st'.run.finish s).steps, none⟩ := by
    rw [trace_of_advance hadv, trace_of_advance hadv', Run.trace, hend]
  refine ⟨notes ++ (notes' ++ st'.run.machine.report s (st'.run.number + 1) .eof), ?_, fun hd => ?_⟩
  · rw [htrace, resolved_eq_ok_iff]
    refine ⟨rfl, ?_⟩
    have haltered : st'.run.machine.writer.altered = false := halt'.trans halt
    rw [hend]
    simp [Trace.text, hout, hout', closeListing, hdepth, Run.altered, haltered]
  · simp [hquiet hd, hquiet' hd, Machine.report, note, hd]

/-- Of the two lines only the condition asks for anything. -/
theorem demands_listed (he : e.Spelled A 0 0 cs) (t : Table) (nl : Newline) :
    ∀ d ∈ Run.demands s t {} [ifLine cs nl, endifLine nl], A d := by
  have hknow : View.knowledge s t = .none := by simp [View.knowledge, Settings.listing, hlist]
  have hm : (Lexical.mk .code .hash).mode = .code := rfl
  have hif : ifLine cs nl = '#' :: ("if".toList ++ ' ' :: (cs ++ nl.chars)) := by simp [ifLine]
  obtain ⟨st, x, hadv, ⟨-, hlex, -⟩, hstack⟩ := advance_if hlist hdepth he t nl
  obtain ⟨st', hadv', -, -⟩ := advance_endif hlist hdepth t nl hlex hstack
  rw [demands_of_advance hadv, demands_of_advance hadv', hlex, lineDemands_endif]
  intro d hd
  have hd : d ∈ lineDemands s t (Run.view s {} (ifLine cs nl)) {} (ifLine cs nl) := by simpa [Run.demands] using hd
  rw [hif, lineDemands_if, hknow] at hd
  exact demands_spelled s _ nl hm he d hd

end

/-- A listing of a condition has its names in their order up to the first fault, each on its line, and nothing else
but notes. It has all of them unless a fault in a left operand has names to its right. A host with limits lists the
same if it allows what the spelling of the condition asks for. -/
theorem list_condition {s : Settings} (hlist : s.symbolList = true) (hdepth : s.symbolDepth = false)
    (hv : s.isValid = true) {symbols : List Symbol} {script : Chars} {t : Table}
    (hb : buildTable s symbols script = .ok t) {A : Demand → Prop} {e : Condition} {cs : Chars}
    (he : e.Spelled A 0 0 cs) (nl : Newline) :
    (∃ notes, resolve s symbols script (ifLine cs nl ++ endifLine nl) =
        .ok ⟨(e.heard s.strictLogic .none).flatMap (fun name => name.toList ++ nl.chars) ++ notes, false⟩ ∧
      (s.debug = false → notes = [])) ∧
    (∀ lim : Limits, (∀ d, A d → lim.allows d = true) →
      resolveOn lim s symbols script (ifLine cs nl ++ endifLine nl) =
        .ok (resolve s symbols script (ifLine cs nl ++ endifLine nl))) ∧
    e.heard s.strictLogic .none <+: e.names ∧
    (e.heard s.strictLogic .none = e.names ↔ ∀ op l r, .binary op l r ∈ e.parts →
      (∃ x ∈ l.parts, Condition.Fails s.strictLogic .none x) → r.names = []) := by
  have hif : FullLine (ifLine cs nl) := fullLine_append (by simp [he.inline.1]) nl
  have hlines : lines (ifLine cs nl ++ endifLine nl) = [ifLine cs nl, endifLine nl] := by
    have hendif : lines (endifLine nl ++ []) = _ := lines_full (fullLine_endif nl) []
    rw [List.append_nil] at hendif
    rw [lines_full hif, hendif]
    rfl
  refine ⟨?_, fun lim hlim => ?_, e.heard_starts_names, e.heard_eq_names_iff⟩
  · obtain ⟨notes, htrace, hnotes⟩ := trace_listed hlist hdepth he t nl
    exact ⟨notes, resolve_eq_ok_iff.mpr ⟨t, hv, hb, hlines ▸ htrace⟩, hnotes⟩
  · refine Limits.impose_of_allows fun d hd => hlim d ?_
    rw [sourceDemands_of_table hv hb, hlines] at hd
    exact demands_listed hlist hdepth he t nl d hd

def quotientSum : Condition := .binary .add (.binary .div (.number 1) (.symbol identA)) (.symbol identB)

theorem list_condition_quotientSum :
    quotientSum.Spelled (Limits.allows ⟨some 4300, some 960⟩ · = true) 0 0 "1 / A + B".toList ∧
    quotientSum.names = ["A", "B"] ∧
    resolveOn ⟨some 4300, some 960⟩ { symbolList := true } [] []
        (ifLine "1 / A + B".toList .lf ++ endifLine .lf) = .ok (.ok ⟨"A\n".toList, false⟩) := by
  have hallows : ∀ d ∈ quotientSum.demandsAt .none 0 0, Limits.allows ⟨some 4300, some 960⟩ d = true := by decide
  have hspelled : quotientSum.Spelled (Limits.allows ⟨some 4300, some 960⟩ · = true) 0 0 "1 / A + B".toList :=
    Condition.spelled_textAt hallows
  have hbuild : buildTable { symbolList := true } [] [] = .ok [] := rfl
  obtain ⟨⟨notes, hresolve, hnotes⟩, hhost, -, -⟩ := list_condition rfl rfl rfl hbuild hspelled .lf
  rw [hnotes rfl] at hresolve
  refine ⟨hspelled, rfl, ?_⟩
  rw [hhost _ fun _ h => h, hresolve]
  rfl

end CondResolve
