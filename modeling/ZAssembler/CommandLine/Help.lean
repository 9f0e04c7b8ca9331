/-
  What the program says about itself: its version, a summary of its options with one line for
  each, and a longer text with a paragraph for each.
-/

namespace ZAssembler.CommandLine

/-- An option as it is described. -/
structure OptionEntry where
  short : Option Char := none
  long : String
  /-- What follows the name: a value, or a mark that the option may be repeated. -/
  suffix : String := ""
  about : String
  /-- The text for the summary, if it is another one. -/
  summary : Option String := none
  notes : List String := []
  deriving DecidableEq, Repr

def inputAbout : String := "JSON file holding the parsed program as an array of nodes."

def optionEntries : List OptionEntry :=
  [{ short := some 'o', long := "outfile", suffix := " <FILE>"
     about := "Write the story file to FILE. Defaults to the input name with a .z<version> " ++
       "extension." },
   { long := "story-version", suffix := " <N>"
     about := "Story version to assemble for until a .NEW directive selects another. " ++
       "Defaults to 3." },
   { long := "debug-info", suffix := " <FILE>"
     about := "Write the debug records of the final pass to FILE as JSON." },
   { short := some 'a', long := "abbreviations", suffix := " <N>"
     about := "Collect the story's literal text and report up to N abbreviations (at most 96)." },
   { long := "abbrev-output", suffix := " <FILE>"
     about := "Write the abbreviation declarations to FILE instead of stdout." },
   { long := "serial", suffix := " <SERIAL>"
     about := "Six-character serial stored at 0x12. Shorter values are padded with 0. " ++
       "Defaults to today's UTC date as YYMMDD." },
   { long := "release", suffix := " <N>"
     about := "Release number stored at 0x02. Overrides the ZORKID symbol." },
   { long := "creator", suffix := " <TAG>"
     about := "Creator tag of up to 4 ASCII characters stored at 0x3C." },
   { long := "max-errors", suffix := " <N>"
     about := "Serious errors tolerated before assembly is abandoned. Defaults to 100." },
   { short := some 'v', long := "verbose", suffix := "..."
     about := "Raise log verbosity. -v logs pass progress, -vv adds per-symbol detail." },
   { long := "format", suffix := " <FORMAT>"
     about := "Select diagnostic output format. text is default; json prints one object per " ++
       "diagnostic."
     notes := ["[default: text]", "[possible values: text, json]"] },
   { short := some 'q', long := "quiet"
     about := "Suppress diagnostic output for successful assembly runs. Errors are still " ++
       "reported unless --no-error is set." },
   { short := some 'E', long := "error", suffix := " <FILE>"
     about := "Write diagnostics to FILE instead of stderr." },
   { long := "error-append"
     about := "Append to the -E/--error file instead of truncating it." },
   { long := "no-error"
     about := "Do not report diagnostics at all." },
   { short := some 'w', long := "no-warn"
     about := "Suppress warnings." },
   { long := "Werror"
     about := "Treat warnings as errors; no story file is written when any warning is reported." },
   { short := some 'h', long := "help"
     about := "Print help (see a summary with '-h')"
     summary := some "Print help (see more with '--help')" },
   { short := some 'V', long := "version"
     about := "Print version" }]

/-- The names of an option, in a column of their own. -/
def OptionEntry.names (o : OptionEntry) : String :=
  let short := match o.short with
    | some c => s!"-{c}, "
    | none => "    "
  s!"{short}--{o.long}{o.suffix}"

def usageLine : String := "Usage: zforge [OPTIONS] <NODES>"

def versionText : String := "zforge 0.1.0\n"

/-! ## The summary -/

/-- Text in a column that is two characters wider than it needs to be for `width`. -/
def inColumn (width : Nat) (text : String) : String :=
  text ++ String.ofList (List.replicate (width + 2 - text.length) ' ')

def OptionEntry.line (width : Nat) (o : OptionEntry) : String :=
  "  " ++ inColumn width o.names ++ " ".intercalate (o.summary.getD o.about :: o.notes) ++ "\n"

def summaryText : String :=
  let width := optionEntries.foldl (fun width o => max width o.names.length) 0
  "Z-machine assembler with story layout, packed addresses and an abbreviation optimizer\n\n" ++
    usageLine ++ "\n\nArguments:\n  <NODES>  " ++ inputAbout ++ "\n\nOptions:\n" ++
    String.join (optionEntries.map (·.line width))

/-! ## The longer text -/

/-- A paragraph below what it is about. -/
def paragraph (lines : List String) : String :=
  String.join (lines.map fun line => "          " ++ line ++ "\n")

def OptionEntry.block (o : OptionEntry) : String :=
  "  " ++ o.names ++ "\n" ++
    paragraph (o.about :: if o.notes.isEmpty then [] else "" :: o.notes)

def helpText : String :=
  "Z-machine assembler for versions 1 through 8.\n\n" ++
  "The input is a JSON array of parsed ZAP nodes. The story file is written next to\n" ++
  "the input as <name>.z<version> unless -o/--outfile names it.\n" ++
  "Use --debug-info to write the debug records of the final pass as JSON.\n" ++
  "Use --abbreviations N to print up to N .FSTR declarations that would shorten the\n" ++
  "story's text; --abbrev-output writes them to a file instead of stdout.\n\n" ++
  usageLine ++ "\n\nArguments:\n  <NODES>\n" ++ paragraph [inputAbout] ++ "\nOptions:\n" ++
    "\n".intercalate (optionEntries.map (·.block))

end ZAssembler.CommandLine
