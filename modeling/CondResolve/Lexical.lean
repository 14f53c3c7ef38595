import CondResolve.Text

/-! # Lexical states: comments, literals and the start of a line

A line is read from suffixes of it. The state carries over from line to line; it tells which comment
or literal the cursor is in, and whether a `#` at the cursor would start a directive. -/

namespace CondResolve

inductive Quote where
  | single
  | double
  deriving DecidableEq, Repr

def Quote.char : Quote → Char
  | .single => '\''
  | .double => '"'

inductive Mode where
  | code
  | blockComment
  | lineComment
  /-- After a slash and a continuation: the next character may open a comment. -/
  | slash
  /-- In a block comment, after a star and a continuation. -/
  | star
  | literal (q : Quote)
  | rawLiteral
  deriving DecidableEq, Repr

inductive LineState where
  /-- Only space and comments so far. -/
  | start
  /-- Only space, comments and a hash. -/
  | hash
  /-- Not a directive. -/
  | dirty
  deriving DecidableEq, Repr

structure Lexical where
  mode : Mode := .code
  line : LineState := .start
  deriving DecidableEq, Repr

/-- A line ended inside a literal; the line state is that of the literal. -/
structure Broken where
  quote : Quote
  line : LineState
  deriving DecidableEq, Repr

def Broken.lex (b : Broken) : Lexical := ⟨.literal b.quote, b.line⟩

/-! ## One move -/

inductive Move where
  /-- It is code. -/
  | stop (next : Lexical)
  /-- It is skipped, possibly with some that follow it. -/
  | eat (next : Lexical) (rest : Chars)
  /-- It ends the line inside a literal. -/
  | broken (q : Quote)

/-- What follows a backslash that joins a line to the next one. -/
def afterContinuation? : Chars → Option Chars
  | '\\' :: '\r' :: '\n' :: r => some r
  | '\\' :: '\n' :: r => some r
  | _ => none

def moveSlash (line : LineState) (r : Chars) : Move :=
  match afterContinuation? r with
  | some r' => .eat ⟨.slash, line⟩ r'
  | none =>
    match r with
    | '*' :: r' => .eat ⟨.blockComment, line⟩ r'
    | '/' :: r' => .eat ⟨.lineComment, line⟩ r'
    | _ => .stop ⟨.code, line⟩

def moveCode (line : LineState) (c : Char) (r : Chars) : Move :=
  if c = '/' then moveSlash line r
  else if c = '\'' then .eat ⟨.literal .single, .dirty⟩ r
  else if c = '"' then .eat ⟨.literal .double, .dirty⟩ r
  else if c = 'R' then
    match r with
    | '"' :: '(' :: r' => .eat ⟨.rawLiteral, .dirty⟩ r'
    | _ => .stop ⟨.code, line⟩
  else if c = '\n' then .eat ⟨.code, .start⟩ r
  else if isSpace c then .eat ⟨.code, line⟩ r
  else .stop ⟨.code, line⟩

def moveBlock (line : LineState) (c : Char) (r : Chars) : Move :=
  if c = '*' then
    match afterContinuation? r with
    | some r' => .eat ⟨.star, line⟩ r'
    | none =>
      match r with
      | '/' :: r' => .eat ⟨.code, line⟩ r'
      | _ => .eat ⟨.blockComment, line⟩ r
  else .eat ⟨.blockComment, line⟩ r

def moveLiteral (q : Quote) (line : LineState) (c : Char) (r : Chars) : Move :=
  if c = q.char then .eat ⟨.code, line⟩ r
  else if c = '\\' then .eat ⟨.literal q, line⟩ (r.drop 1)
  else if c = '\n' then .broken q
  else .eat ⟨.literal q, line⟩ r

def moveIn (lx : Lexical) (c : Char) (r : Chars) : Move :=
  match lx.mode with
  | .code => moveCode lx.line c r
  | .lineComment => .eat (if c = '\n' then ⟨.code, .start⟩ else lx) r
  | .literal q => moveLiteral q lx.line c r
  | .rawLiteral =>
    match c, r with
    | ')', '"' :: r' => .eat ⟨.code, lx.line⟩ r'
    | _, _ => .eat lx r
  | .blockComment => moveBlock lx.line c r
  | .slash =>
    if c = '*' then .eat ⟨.blockComment, lx.line⟩ r
    else if c = '/' then .eat ⟨.lineComment, lx.line⟩ r
    else moveCode .dirty c r
  | .star => if c = '/' then .eat ⟨.code, lx.line⟩ r else moveBlock lx.line c r

/-- A continuation is skipped in every mode and leaves the state as it is. -/
def move (lx : Lexical) (c : Char) (r : Chars) : Move :=
  match afterContinuation? (c :: r) with
  | some r' => .eat lx r'
  | none => moveIn lx c r

theorem length_of_afterContinuation? {cs rest : Chars} (h : afterContinuation? cs = some rest) :
    rest.length < cs.length := by
  unfold afterContinuation? at h
  split at h <;> cases h <;> simp only [List.length_cons] <;> omega

theorem length_of_moveSlash {line : LineState} {r rest : Chars} {next : Lexical}
    (h : moveSlash line r = .eat next rest) : rest.length ≤ r.length := by
  unfold moveSlash at h
  split at h
  · rename_i hc
    cases h
    exact Nat.le_of_lt (length_of_afterContinuation? hc)
  · split at h <;> cases h <;> simp

theorem length_of_moveCode {line : LineState} {c : Char} {r rest : Chars} {next : Lexical}
    (h : moveCode line c r = .eat next rest) : rest.length ≤ r.length := by
  unfold moveCode at h
  split at h
  · exact length_of_moveSlash h
  · repeat' split at h
    all_goals cases h <;> simp <;> omega

theorem length_of_moveBlock {line : LineState} {c : Char} {r rest : Chars} {next : Lexical}
    (h : moveBlock line c r = .eat next rest) : rest.length ≤ r.length := by
  unfold moveBlock at h
  split at h
  · split at h
    · rename_i hc
      cases h
      exact Nat.le_of_lt (length_of_afterContinuation? hc)
    · split at h <;> cases h <;> simp
  · cases h; simp

/-- A move never goes back. -/
theorem length_of_move {lx : Lexical} {c : Char} {r rest : Chars} {next : Lexical}
    (h : move lx c r = .eat next rest) : rest.length ≤ r.length := by
  unfold move at h
  split at h
  · rename_i h'
    cases h
    exact Nat.le_of_lt_succ (length_of_afterContinuation? h')
  · unfold moveIn at h
    split at h
    · exact length_of_moveCode h
    · cases h; simp
    · unfold moveLiteral at h
      repeat' split at h
      all_goals cases h <;> simp
    · split at h <;> cases h <;> simp
    · exact length_of_moveBlock h
    · split at h
      · cases h; simp
      · split at h
        · cases h; simp
        · exact length_of_moveCode h
    · split at h
      · cases h; simp
      · exact length_of_moveBlock h

/-! ## Moving on to the next code character -/

def skipParsed (lx : Lexical) (cs : Chars) : Except Broken (Lexical × Chars) :=
  match cs with
  | [] => .ok (lx, [])
  | c :: r =>
    match h : move lx c r with
    | .stop next => .ok (next, c :: r)
    | .broken q => .error ⟨q, lx.line⟩
    | .eat next rest =>
      have := length_of_move h
      skipParsed next rest
termination_by cs.length
decreasing_by simp; omega

def skipSpace (lx : Lexical) : Chars → Lexical × Chars
  | [] => (lx, [])
  | c :: r =>
    if c = '\n' then skipSpace { lx with line := .start } r
    else if isSpace c then skipSpace lx r
    else (lx, c :: r)

/-- The next code character, where `verbatim` text is code except for its white space. -/
def skip (verbatim : Bool) (lx : Lexical) (cs : Chars) : Except Broken (Lexical × Chars) :=
  if verbatim then .ok (skipSpace lx cs) else skipParsed lx cs

theorem length_of_skipParsed {lx lx' : Lexical} {cs rest : Chars}
    (h : skipParsed lx cs = .ok (lx', rest)) : rest.length ≤ cs.length := by
  fun_induction skipParsed lx cs with
  | case1 => cases h; simp
  | case2 => cases h; simp
  | case3 => cases h
  | case4 lx c r next rest' hm hle ih =>
    have := ih h
    simp only [List.length_cons]
    omega

theorem length_skipSpace (lx : Lexical) (cs : Chars) : (skipSpace lx cs).2.length ≤ cs.length := by
  induction cs generalizing lx with
  | nil => simp [skipSpace]
  | cons c r ih =>
    rw [skipSpace]
    split
    · exact Nat.le_succ_of_le (ih _)
    · split
      · exact Nat.le_succ_of_le (ih _)
      · simp

theorem length_of_skip {verbatim : Bool} {lx lx' : Lexical} {cs rest : Chars}
    (h : skip verbatim lx cs = .ok (lx', rest)) : rest.length ≤ cs.length := by
  unfold skip at h
  split at h
  · have hs : skipSpace lx cs = (lx', rest) := Except.ok.inj h
    have := length_skipSpace lx cs
    rwa [hs] at this
  · exact length_of_skipParsed h

/-! ## Larger steps -/

section
variable (verbatim : Bool)

def drain (lx : Lexical) (cs : Chars) : Except Broken Lexical :=
  match h : skip verbatim lx cs with
  | .error b => .error b
  | .ok (lx', []) => .ok lx'
  | .ok (lx', _ :: r) =>
    have := length_of_skip h
    drain lx' r
termination_by cs.length
decreasing_by simp at this; omega

/-- Gives up the line as a directive, unless it is read already, and reads to its end. -/
def skipLine (lx : Lexical) (cs : Chars) : Except Broken Lexical :=
  if cs.isEmpty then .ok lx else drain verbatim { lx with line := .dirty } cs

/-- Reads on to the parenthesis that brings the depth to zero; `none` if the line ends first. -/
def closeArgs (depth : Nat) (lx : Lexical) (cs : Chars) : Except Broken (Lexical × Option Chars) :=
  match cs with
  | [] => .ok (lx, none)
  | c :: r =>
    let depth := if c = '(' then depth + 1 else if c = ')' then depth - 1 else depth
    match h : skip verbatim lx r with
    | .error b => .error b
    | .ok (lx', rest) =>
      have := length_of_skip h
      if depth = 0 then .ok (lx', some rest) else closeArgs depth lx' rest
termination_by cs.length
decreasing_by simp; omega

/-- Skips the arguments of a function-like symbol. Arguments that are never closed are left for the
reader of the expression to trip over. -/
def skipArgs (lx : Lexical) (cs : Chars) : Except Broken (Lexical × Chars) :=
  match skip verbatim lx cs with
  | .ok (lx', '(' :: r) => do
    let (lx'', rest) ← closeArgs verbatim 0 lx' ('(' :: r)
    return (lx'', rest.getD cs)
  | next => next

/-- The identifier after white space and comments. Without one the cursor stays. -/
def nextSymbol (lx : Lexical) (cs : Chars) : Except Broken (Lexical × Option String × Chars) := do
  let (lx', rest) ← skip verbatim lx cs
  let name := symbolOf rest
  if name.isEmpty then return (lx', none, cs)
  else return (lx', some (String.ofList name), afterSymbol rest)

/-- The text from the keyword of a directive on; nothing if `line` is none. -/
def findKeyword (lx : Lexical) (line : Chars) : Except Broken (Lexical × Chars) := do
  let (lx', rest) ← skip verbatim lx line
  match lx'.line, rest with
  | .start, '#' :: r => skip verbatim { lx' with line := .hash } r
  | _, _ => return (← skipLine verbatim lx' rest, [])

end

end CondResolve
