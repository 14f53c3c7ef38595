import CondResolve.Line

/-! # Groups: what a directive does to the group it stands in

A group runs from its `#if` to its `#endif`. Its phase tells which of its branches have been met, and
whether the lines of the current one are dropped. Some directives that are kept have to be edited: an
unknown `#elif` after false branches becomes the `#if` of what is left of the group, a true `#elif`
after unknown ones becomes its `#else`, and whatever follows that its `#endif`.

A dodgy directive is handled only where it makes no change from writing lines to dropping them or
back; elsewhere it is refused, or passed through as unknown if that is permitted. -/

namespace CondResolve

inductive Phase where
  /-- A false `#if`, then false `#elif`s. -/
  | falsePrefix
  /-- The first branch that is not false is true. -/
  | truePrefix
  /-- The first branch that is not false is unknown. -/
  | passMiddle
  /-- A false `#elif` after an unknown branch. -/
  | falseMiddle
  /-- A true `#elif` after an unknown branch. -/
  | trueMiddle
  /-- The `#else` after an unknown branch. -/
  | passElse
  /-- The `#else` after a true branch. -/
  | falseElse
  /-- The `#else` after false branches only. -/
  | trueElse
  /-- The branches after a true one. -/
  | falseTrailer
  deriving DecidableEq, Repr

namespace Phase

def label : Phase → String
  | .falsePrefix => "FALSE_PREFIX"
  | .truePrefix => "TRUE_PREFIX"
  | .passMiddle => "PASS_MIDDLE"
  | .falseMiddle => "FALSE_MIDDLE"
  | .trueMiddle => "TRUE_MIDDLE"
  | .passElse => "PASS_ELSE"
  | .falseElse => "FALSE_ELSE"
  | .trueElse => "TRUE_ELSE"
  | .falseTrailer => "FALSE_TRAILER"

def drops : Phase → Bool
  | .falsePrefix | .falseMiddle | .falseElse | .falseTrailer => true
  | _ => false

end Phase

structure Group where
  phase : Phase
  /-- Comments and literals in the group are not recognised. -/
  ignored : Bool
  /-- The line that opened the group. -/
  opened : Nat
  deriving DecidableEq, Repr

/-- The open groups, innermost first. -/
abbrev Stack := List Group

namespace Stack

def phase? (st : Stack) : Option Phase := st.head?.map (·.phase)

def ignoring (st : Stack) : Bool := st.head?.any (·.ignored)

def label (st : Stack) : String := (st.phase?.map Phase.label).getD "OUTSIDE"

def enclosing? (st : Stack) : Option Enclosing := st.head?.map fun g => ⟨g.opened, st.length⟩

def leave : Stack → Except Cause Stack
  | [] => .error .leavingOutermost
  | _ :: st => .ok st

end Stack

/-! ## Turns -/

/-- How a kept directive is edited to keep the groups nested. -/
inductive Edit where
  | toIf
  | toElse
  | toEndif
  deriving DecidableEq, Repr

inductive Shift where
  | stay
  | enter (p : Phase) (ignored : Bool)
  /-- The next branch is read as the text around the group is. -/
  | branch (p : Phase)
  | switch (p : Phase)
  | leave
  deriving DecidableEq, Repr

structure Turn where
  keep : Bool
  shift : Shift
  edit : Option Edit := none
  deriving DecidableEq, Repr

def keepAnd (sh : Shift) : Except Cause Turn := .ok ⟨true, sh, none⟩

def dropAnd (sh : Shift) : Except Cause Turn := .ok ⟨false, sh, none⟩

def editAnd (e : Edit) (sh : Shift) : Except Cause Turn := .ok ⟨true, sh, some e⟩

def dropping : Option Phase → Bool
  | none => false
  | some p => p.drops

def openTurn (permit : Bool) (around : Option Phase) (t : Truth) (ignored dodgy : Bool) :
    Except Cause Turn :=
  if dropping around then dropAnd (.enter .falseTrailer ignored)
  else
    match t, dodgy with
    | .unknown, _ => keepAnd (.enter .passMiddle ignored)
    | _, true => if permit then keepAnd (.enter .passMiddle ignored) else .error .obfuscated
    | .yes, false => dropAnd (.enter .truePrefix ignored)
    | .no, false => dropAnd (.enter .falsePrefix ignored)

def elifTurn (permit : Bool) (here : Option Phase) (t : Truth) (dodgy : Bool) : Except Cause Turn :=
  match here, t, dodgy with
  | none, _, _ | some .passElse, _, _ | some .falseElse, _, _ | some .trueElse, _, _ =>
    .error (.misplaced .elif)
  | some .falsePrefix, .unknown, _ => editAnd .toIf (.branch .passMiddle)
  | some .falsePrefix, .yes, false => dropAnd (.branch .truePrefix)
  | some .falsePrefix, .no, false => dropAnd (.branch .falsePrefix)
  | some .truePrefix, _, false => dropAnd (.branch .falseTrailer)
  | some .passMiddle, .unknown, _ => keepAnd (.branch .passMiddle)
  | some .passMiddle, _, true =>
    if permit then keepAnd (.branch .passMiddle) else .error .obfuscated
  | some .falseMiddle, .unknown, false => keepAnd (.branch .passMiddle)
  | some .passMiddle, .yes, false | some .falseMiddle, .yes, false =>
    editAnd .toElse (.switch .trueMiddle)
  | some .passMiddle, .no, false | some .falseMiddle, .no, false => dropAnd (.branch .falseMiddle)
  | some .trueMiddle, _, false => editAnd .toEndif (.switch .falseTrailer)
  | some .falseTrailer, _, _ => dropAnd (.branch .falseTrailer)
  | some _, _, true => .error .obfuscated

def elseTurn (here : Option Phase) (dodgy : Bool) : Except Cause Turn :=
  match here, dodgy with
  | none, _ | some .passElse, _ | some .falseElse, _ | some .trueElse, _ =>
    .error (.misplaced .otherwise)
  | some .passMiddle, _ => keepAnd (.switch .passElse)
  | some .falseTrailer, _ => dropAnd (.switch .falseElse)
  | some .falsePrefix, false => dropAnd (.switch .trueElse)
  | some .truePrefix, false => dropAnd (.switch .falseElse)
  | some .falseMiddle, false => keepAnd (.switch .passElse)
  | some .trueMiddle, false => editAnd .toEndif (.switch .falseElse)
  | some _, true => .error .obfuscated

def closeTurn (here : Option Phase) (dodgy : Bool) : Except Cause Turn :=
  match here, dodgy with
  | none, _ => .error (.misplaced .closing)
  | some .passMiddle, _ | some .trueMiddle, _ | some .passElse, _ => keepAnd .leave
  | some .falseMiddle, false => keepAnd .leave
  | some _, false => dropAnd .leave
  | some _, true => .error .obfuscated

def Directive.turn (permit : Bool) (here : Option Phase) (d : Directive) (dodgy : Bool) :
    Except Cause Turn :=
  match d with
  | .guard holds => openTurn permit here (.ofBool holds) true dodgy
  | .opening t => openTurn permit here t false dodgy
  | .elif t => elifTurn permit here t dodgy
  | .otherwise => elseTurn here dodgy
  | .closing => closeTurn here dodgy

def Shift.apply (n : Nat) : Shift → Stack → Except Cause Stack
  | .stay, st => .ok st
  | .enter p ignored, st => .ok (⟨p, ignored || st.ignoring, n⟩ :: st)
  | .branch p, g :: st => .ok ({ g with phase := p, ignored := Stack.ignoring st } :: st)
  | .switch p, g :: st => .ok ({ g with phase := p } :: st)
  | .leave, st => st.leave
  | _, [] => .error .leavingOutermost

end CondResolve
