import CondResolve.Limits
import CondResolve.Proofs.Advance
import CondResolve.Proofs.Climbing

/-!
# Runs on a host with limits

A run asks for what the conditions of its lines ask for, in their order. Numerals and parentheses can ask for any
amount, so that every limit refuses some source.
-/

namespace CondResolve

/-! ## Demands of lines -/

section
variable {s : Settings} {t : Table} {v : View} {lx : Lexical} {r : Run} {line : Chars} {ls : List Chars} {st : Step}

theorem lineDemands_if (rest : Chars) : lineDemands s t v {} ('#' :: ("if".toList ++ ' ' :: rest)) =
    demands s v.verbatim (View.knowledge s t) ⟨.code, .hash⟩ (' ' :: rest) := by
  have hfind : findKeyword v.verbatim {} ('#' :: ("if".toList ++ ' ' :: rest)) = .ok (⟨.code, .hash⟩, _) :=
    findKeyword_hash ⟨'i', _, rfl, rfl, by decide⟩
  have hif : afterWord? "if".toList ("if".toList ++ ' ' :: rest) = some (' ' :: rest) := rfl
  rw [lineDemands, hfind]
  simp only [hif, Option.some_or]

/-- A line and then the lines behind it. -/
theorem demands_of_advance (h : r.advance s t line = .ok st) :
    r.demands s t (line :: ls) = lineDemands s t (r.view s line) r.lex line ++ st.run.demands s t ls := by
  obtain ⟨p, hp, hst⟩ := bind_eq_ok.mp h
  rw [Run.demands, hp]
  simp only [hst]

end

theorem sourceDemands_of_table {s : Settings} {t : Table} {symbols : List Symbol} {script : Chars}
    (hv : s.isValid = true) (hb : buildTable s symbols script = .ok t) (source : Chars) :
    sourceDemands s symbols script source = Run.demands s t {} (lines source) := by
  simp [sourceDemands, hv, hb]

/-! ## Demands without bound -/

section
variable {s : Settings} {verbatim strict : Bool} {k : Knowledge} {lx : Lexical} {e : Evaluation} {cs ds : Chars}
  {deep : Nat} (hm : lx.mode = .code)

theorem Reading.code_starts_bind (p : Reading) (f : Lexical → Chars → Reading) : p.code <+: (p.bind f).code := by
  unfold Reading.bind
  split
  · exact List.prefix_rfl
  · exact List.prefix_append ..

include hm

theorem code_numeral (hne : ds ≠ []) (hd : ∀ c ∈ ds, isDigit c = true) (nl : Newline) :
    [.numeral ds] <+: (climb verbatim 0 lx (ds ++ nl.chars)).code := by
  have htrails : Trails verbatim lx ⟨.code, .start⟩ 0 nl.chars [] := .newline hm nl
  rw [climb_eq, operand_number hm hne hd htrails]
  exact Reading.code_starts_bind (.done [.numeral ds] lx nl.chars) _

/-- Behind an opening parenthesis the reader is some calls further down, whatever follows. -/
theorem code_paren (cs : Chars) :
    .enter parenCalls :: (climb verbatim 0 lx cs).code <+: (climb verbatim 0 lx ('(' :: cs)).code := by
  have hnested : .enter parenCalls :: (climb verbatim 0 lx cs).code <+:
      ((climb verbatim 0 lx cs).nested parenCalls).code := List.prefix_append ..
  have hclimb : climb verbatim 0 lx ('(' :: cs) = (((climb verbatim 0 lx cs).nested parenCalls).bind
      fun lx rest => closeParen verbatim lx rest).bind (climbOn verbatim 0) := by
    rw [climb_eq, operand_paren (skip_paren hm)]
  rw [hclimb]
  exact hnested.trans ((Reading.code_starts_bind ..).trans (Reading.code_starts_bind ..))

theorem nesting_mem_demands (n : Nat) (cs : Chars) : .nesting (deep + parenCalls * (n + 1)) ∈
    e.demands k strict deep (climb verbatim 0 lx (List.replicate (n + 1) '(' ++ cs)).code := by
  induction n generalizing deep with
  | zero =>
    refine (demands_starts_demands (code_paren hm cs)).subset ?_
    simp [Evaluation.demands, Instr.demand?]
  | succ n ih =>
    have hsum : deep + parenCalls * (n + 1 + 1) = deep + parenCalls + parenCalls * (n + 1) := by
      rw [Nat.mul_succ parenCalls (n + 1)]
      omega
    rw [hsum]
    refine (demands_starts_demands (code_paren hm _)).subset ?_
    exact List.mem_append_right _ ih

end

section
variable {lim : Limits} {s : Settings} {t : Table} {symbols : List Symbol} {script : Chars} (hv : s.isValid = true)
  (hb : buildTable s symbols script = .ok t)
include hv hb

/-- What the condition of the first line asks for comes first. -/
theorem demands_starts_sourceDemands {cs : Chars} (hn : '\n' ∉ cs) (nl : Newline) (rest : Chars) :
    demands s s.passthroughText (View.knowledge s t) ⟨.code, .hash⟩ (' ' :: (cs ++ nl.chars)) <+:
      sourceDemands s symbols script ("#if ".toList ++ cs ++ nl.chars ++ rest) := by
  have hfull : FullLine ("#if ".toList ++ cs ++ nl.chars) := fullLine_append (by simp [hn]) nl
  have hverbatim : (Run.view s {} ("#if ".toList ++ cs ++ nl.chars)).verbatim = s.passthroughText := Bool.or_false _
  have hline : "#if ".toList ++ cs ++ nl.chars = '#' :: ("if".toList ++ ' ' :: (cs ++ nl.chars)) := by simp
  rw [sourceDemands_of_table hv hb, lines_full hfull, Run.demands, ← hverbatim]
  refine List.IsPrefix.trans ?_ (List.prefix_append ..)
  show _ <+: lineDemands s t _ {} _
  rw [hline]
  exact (lineDemands_if _).symm ▸ List.prefix_rfl

/-- A numeral with too many digits. -/
theorem resolveOn_numeral {ds : Chars} (hne : ds ≠ []) (hd : ∀ c ∈ ds, isDigit c = true)
    (h : lim.allows (.numeral ds.length) = false) (nl : Newline) (rest : Chars) :
    resolveOn lim s symbols script ("#if ".toList ++ ds ++ nl.chars ++ rest) = .error (.numeral ds.length) := by
  have hn : '\n' ∉ ds := fun hmem => absurd (hd _ hmem) (by decide)
  have hm : (Lexical.mk .code .hash).mode = .code := rfl
  have hfirst : [.numeral ds.length] <+:
      sourceDemands s symbols script ("#if ".toList ++ ds ++ nl.chars ++ rest) := by
    refine List.IsPrefix.trans ?_ (demands_starts_sourceDemands hv hb hn nl rest)
    unfold demands
    rw [climb_eq, operand_space rfl, ← climb_eq]
    exact demands_starts_demands (p := [.numeral ds]) (code_numeral hm hne hd nl)
  obtain ⟨ds', hds⟩ := hfirst
  unfold resolveOn
  rw [← hds]
  exact Limits.impose_cons h

/-- Too many parentheses. -/
theorem resolveOn_parens {n : Nat} {cs : Chars} (hn : '\n' ∉ cs)
    (h : lim.allows (.nesting (parenCalls * n)) = false) (nl : Newline) (rest : Chars) :
    ∃ d, resolveOn lim s symbols script ("#if ".toList ++ (List.replicate n '(' ++ cs) ++ nl.chars ++ rest) =
      .error d := by
  have hm : (Lexical.mk .code .hash).mode = .code := rfl
  cases n with
  | zero => cases lim with | mk digits calls => cases calls <;> cases h
  | succ n =>
    have hline : '\n' ∉ List.replicate (n + 1) '(' ++ cs := by simp [hn]
    refine Limits.impose_of_mem ?_ h
    refine (demands_starts_sourceDemands hv hb hline nl rest).subset ?_
    unfold demands
    rw [climb_eq, operand_space rfl, ← climb_eq, List.append_assoc, ← Nat.zero_add (parenCalls * (n + 1))]
    exact nesting_mem_demands hm n (cs ++ nl.chars)

end

end CondResolve
