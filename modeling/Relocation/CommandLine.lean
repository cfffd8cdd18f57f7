import Relocation.Run

/-!
# The command line

Arguments are read from left to right. Words that start with a hyphen are options, until two
hyphens alone make everything behind them a pattern; a hyphen alone is a pattern too. The first
argument that cannot be read refuses the whole line, and so does a line without patterns. A
request for help is granted at once.
-/

namespace Relocation.CommandLine

-- ---------------------------------------------------------------------------
-- Requests
-- ---------------------------------------------------------------------------

/-- What a command line asks for. -/
structure Request where
  dryRun : Bool
  /-- Whether reports are printed. -/
  json : Bool
  patterns : List String
  deriving Repr, DecidableEq, Inhabited

/-- Why a command line is refused. -/
inductive Refusal where
  | unknown (argument : String)
  | repeated (option : String)
  | needless (value option : String)
  | noPatterns
  deriving Repr, DecidableEq, Inhabited

/-- The first line of what a refusal says. -/
def Refusal.message : Refusal → String
  | unknown argument => s!"unexpected argument '{argument}' found"
  | repeated option => s!"the argument '{option}' cannot be used multiple times"
  | needless value option =>
    s!"unexpected value '{value}' for '{option}' found; no more were expected"
  | noPatterns => "the following required arguments were not provided:"

/-- What comes of reading a command line. -/
inductive Reading where
  | request (request : Request)
  | help
  | refusal (refusal : Refusal)
  deriving Repr, DecidableEq, Inhabited

-- ---------------------------------------------------------------------------
-- Arguments
-- ---------------------------------------------------------------------------

/-- An argument by itself. -/
inductive Argument where
  | pattern
  /-- Two hyphens alone. -/
  | endOfOptions
  /-- A long option with its hyphens, and the value behind an equality sign. -/
  | long (option : String) (value : Option String)
  /-- Short options behind one hyphen. -/
  | short (first : Char)
  deriving Repr, DecidableEq, Inhabited

/-- Tells what an argument is. -/
def Argument.ofString (text : String) : Argument :=
  match text.toList with
  | ['-', '-'] => endOfOptions
  | '-' :: '-' :: rest =>
    match Text.splitAtFirst? ['='] rest with
    | some (option, value) =>
      long (String.ofList ('-' :: '-' :: option)) (some (String.ofList value))
    | none => long text none
  | '-' :: first :: _ => short first
  | _ => pattern

/-- Reads the arguments, given what has been asked for so far. -/
def readFrom (asked : Request) : List String → Reading
  | [] => if asked.patterns = [] then .refusal .noPatterns else .request asked
  | text :: rest =>
    match Argument.ofString text with
    | .pattern => readFrom { asked with patterns := asked.patterns ++ [text] } rest
    | .endOfOptions =>
      let asked := { asked with patterns := asked.patterns ++ rest }
      if asked.patterns = [] then .refusal .noPatterns else .request asked
    | .long "--dry-run" none =>
      if asked.dryRun then .refusal (.repeated "--dry-run")
      else readFrom { asked with dryRun := true } rest
    | .long "--json" none =>
      if asked.json then .refusal (.repeated "--json")
      else readFrom { asked with json := true } rest
    | .long "--help" none => .help
    | .long option (some value) =>
      if ["--dry-run", "--json", "--help"].contains option then .refusal (.needless value option)
      else .refusal (.unknown option)
    | .long option none => .refusal (.unknown option)
    | .short 'h' => .help
    | .short first => .refusal (.unknown (String.ofList ['-', first]))

/-- Reads a command line. -/
def read (arguments : List String) : Reading := readFrom ⟨false, false, []⟩ arguments

-- ---------------------------------------------------------------------------
-- Answers
-- ---------------------------------------------------------------------------

/-- The lines of the help text. -/
def helpLines : List String := [
  "Rewrite @aws-cdk/* imports to their monocdk equivalents",
  "",
  "Usage: rewrite-imports [OPTIONS] <PATTERN>...",
  "",
  "Arguments:",
  "  <PATTERN>...  File patterns to process, e.g. '**/*.ts'",
  "",
  "Options:",
  "      --dry-run  Report what would change without writing any file",
  "      --json     Print one JSON report per processed file on stdout",
  "  -h, --help     Print help"]

/-- Lines as text, each one ended. -/
def linesText (lines : List String) : String := String.join (lines.map (· ++ "\n"))

/-- What a command line leads to. -/
structure Answer where
  tree : FileTree
  status : Nat
  output : String
  errors : String

/-- Patterns are looked for below the working directory. -/
def root : Path := ⟨['.']⟩

/-- Does what a command line asks for. -/
def execute (tree : FileTree) (arguments : List String) (unlisted : Unlisted := allListed) :
    Answer :=
  match read arguments with
  | .help => ⟨tree, 0, linesText helpLines, ""⟩
  | .refusal refusal =>
    ⟨tree, 2, "", linesText [s!"error: {refusal.message}", "",
      "Usage: rewrite-imports [OPTIONS] <PATTERN>...", "", "For more information, try '--help'."]⟩
  | .request request =>
    let outcome := run tree root (request.patterns.map String.toList) request.dryRun unlisted
    let output := if request.json then linesText (outcome.reports.map Report.asObject) else ""
    match outcome.failure with
    | none => ⟨outcome.tree, 0, output, ""⟩
    | some failure => ⟨outcome.tree, 1, output, linesText [s!"error: {failure.message}"]⟩

end Relocation.CommandLine
