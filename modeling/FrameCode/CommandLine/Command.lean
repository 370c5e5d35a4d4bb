import FrameCode.CommandLine.Options
import FrameCode.Machine.Profile

/-!
# Requests: what a command line asks for

A command line asks for help or for a run. Help stands alone. A run needs a source or an input, the
other one being standard input, and fields of a report need a file for the report.

The options tell how often each field was asked for but not in which order. The **layout** of the
report is therefore read from the arguments a second time, along with the texts to print.
-/

namespace FrameCode.CommandLine

/-! ## The layout of the report -/

/-- The field that a flag without value adds to the report. -/
def fieldOf? : Flag → Option ReportField
  | .executed => some .executed
  | .hot => some .hot
  | .peak => some .peak
  | .frequent => some .frequent
  | .lineBreak => some .lineBreak
  | _ => none

/-- The fields of the report in the order of the arguments. The arguments are expected to be
understood as options. -/
def layout : List String → List ReportField
  | [] => []
  | arg :: rest =>
    match splitArgument arg with
    | (name, attached) =>
      match Flag.ofText? name with
      | some .print =>
        match attached, rest with
        | some text, rest => .print text :: layout rest
        | none, text :: rest' => .print text :: layout rest'
        | none, [] => [.print ""]
      | some flag =>
        if flag.takesValue && attached.isNone then
          match rest with
          | _ :: rest' => layout rest'
          | [] => []
        else (fieldOf? flag).toList ++ layout rest
      | none => layout rest

/-! ## Requests -/

/-- A run: where the program and its input come from, standard input if not from a file, and the
file for the report with the fields of the report. -/
structure RunRequest where
  source : Option String
  input : Option String
  report : Option (String × List ReportField)
deriving DecidableEq, Inhabited

/-- What a command line asks for. -/
inductive Command where
  | help
  | run (i : RunRequest)
deriving DecidableEq, Inhabited

/-- The request of a command line; `none` if it is not a proper one. -/
def Command.ofArguments? (args : List String) : Option Command := do
  let o ← Options.ofArguments? args
  if o.help then
    if args.length = 1 then some .help else none
  else if o.source.isNone && o.input.isNone then none
  else if o.stats.isNone && o.asksReport then none
  else some (.run ⟨o.source, o.input, o.stats.map fun path => (path, layout args)⟩)

/-- The text that help shows. -/
def helpText : String :=
  "Interpret an IPPcode23 program stored as XML\n" ++
  "\n" ++
  "Usage: interpret [OPTIONS]\n" ++
  "\n" ++
  "Options:\n" ++
  "      --help            Print this help and exit\n" ++
  "      --source <FILE>   XML representation of the program\n" ++
  "      --input <FILE>    Input read by READ instructions\n" ++
  "      --stats <FILE>    Write the statistics report to FILE\n" ++
  "      --insts...        Report the number of executed instructions\n" ++
  "      --hot...          Report the order of the most executed instruction\n" ++
  "      --vars...         Report the peak number of initialized variables\n" ++
  "      --frequent...     Report the most executed opcodes\n" ++
  "      --print <STRING>  Write STRING into the report\n" ++
  "      --eol...          Write a line break into the report\n" ++
  "\n" ++
  "At least one of --source and --input must be given; the other one is read from standard input.\n"

end FrameCode.CommandLine
