import FrameCode.CommandLine.Flag

/-!
# Options: what the flags of a command line say

The flags are read from left to right. A value may be attached to its flag or be the next argument,
which then must not look like a flag itself: it does not start with a hyphen, a lone hyphen apart. A
double hyphen ends the flags, and nothing may follow it, because the interpreter knows flags only.
-/

namespace FrameCode.CommandLine

/-- The flags that were given: paths by name, and for the flags of a report how often each was
given. The counts are natural numbers, so they have no upper bound. A request depends only on
whether they are positive (`asksReport`), and counts that stop growing at some bound would give the
same one. -/
structure Options where
  help : Bool := false
  source : Option String := none
  input : Option String := none
  stats : Option String := none
  executed : Nat := 0
  hot : Nat := 0
  peak : Nat := 0
  frequent : Nat := 0
  lineBreaks : Nat := 0
  prints : List String := []
deriving DecidableEq, Inhabited

namespace Options

/-- Whether a field of a report was asked for. -/
def asksReport (o : Options) : Bool :=
  0 < o.executed || 0 < o.hot || 0 < o.peak || 0 < o.frequent || 0 < o.lineBreaks
    || !o.prints.isEmpty

/-- Whether an argument can be the value of the flag before it. -/
def isValue (arg : String) : Bool :=
  arg = "-" || arg.toList.head? != some '-'

/-- The options with one more flag that has no value. Help is asked for once. -/
def addFlag (o : Options) : Flag → Option Options
  | .help => if o.help then none else some { o with help := true }
  | .executed => some { o with executed := o.executed + 1 }
  | .hot => some { o with hot := o.hot + 1 }
  | .peak => some { o with peak := o.peak + 1 }
  | .frequent => some { o with frequent := o.frequent + 1 }
  | .lineBreak => some { o with lineBreaks := o.lineBreaks + 1 }
  | _ => none

/-- A path that is not empty and not given yet. -/
def addPath (before : Option String) (value : String) : Option (Option String) :=
  if before.isSome || value.isEmpty then none else some (some value)

/-- The options with one more flag that has a value. -/
def addValue (o : Options) (value : String) : Flag → Option Options
  | .source => (addPath o.source value).map fun p => { o with source := p }
  | .input => (addPath o.input value).map fun p => { o with input := p }
  | .stats => (addPath o.stats value).map fun p => { o with stats := p }
  | .print => some { o with prints := o.prints ++ [value] }
  | _ => none

/-- The options after the arguments of a list. -/
def read (o : Options) : List String → Option Options
  | [] => some o
  | arg :: rest =>
    if arg = "--" then if rest.isEmpty then some o else none
    else
      match splitArgument arg with
      | (name, attached) =>
        match Flag.ofText? name with
        | none => none
        | some flag =>
          if flag.takesValue then
            match attached, rest with
            | some value, rest => (o.addValue value flag).bind fun o' => read o' rest
            | none, value :: rest' =>
              if isValue value then (o.addValue value flag).bind fun o' => read o' rest' else none
            | none, [] => none
          else
            match attached with
            | some _ => none
            | none => (o.addFlag flag).bind fun o' => read o' rest

/-- The options that the arguments of a command line give; `none` if they are not understood. -/
def ofArguments? (args : List String) : Option Options :=
  read {} args

end Options

end FrameCode.CommandLine
