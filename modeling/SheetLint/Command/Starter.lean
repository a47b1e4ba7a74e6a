/-!
# The configuration file to start from
-/

namespace SheetLint.Starter

/-- The lines of a new configuration file. -/
def lines : List String :=
  ["# scss-lint configuration",
    "",
    "# Starting rule set: \"recommended\" (default), \"strict\" or \"minimal\"",
    "preset = \"recommended\"",
    "",
    "# Lowest severity that fails the run: \"error\" (default) or \"warning\"",
    "# fail_on = \"warning\"",
    "",
    "[analyzer]",
    "# Glob patterns to exclude from analysis",
    "exclude = [",
    "    \"**/node_modules/**\",",
    "    \"**/vendor/**\",",
    "]",
    "",
    "# File extensions to lint",
    "extensions = [\"scss\"]",
    "",
    "# Maximum number of files processed in parallel (default: one per core)",
    "# parallelism = 4",
    "",
    "[fix]",
    "# Bound on fix rounds per file",
    "max_iterations = 10",
    "",
    "# Rule configurations",
    "# Each rule can be enabled/disabled and have its severity overridden",
    "",
    "[rules.indentation]",
    "width = 2",
    "style = \"space\"",
    "",
    "[rules.quote-style]",
    "style = \"single\"",
    "",
    "[rules.max-nesting-depth]",
    "max = 3",
    "# severity = \"warning\"  # Override default severity",
    "",
    "[rules.color-literal]",
    "case = \"lower\"",
    "shorthand = true",
    "",
    "# [rules.property-order]",
    "# enabled = true",
    "# include_first = true",
    "",
    "# [rules.selector-naming]",
    "# pattern = \"^[a-z][a-z0-9]*(-[a-z0-9]+)*$\""]

/-- A new configuration file. -/
def text : String := String.join (lines.map (· ++ "\n"))

/-- What is said after a configuration file was written. -/
def advice (path : String) : String :=
  s!"Created {path}\n\nNext steps:\n  1. Edit {path} to configure rules\n"
    ++ "  2. Run: scss-lint check\n"

end SheetLint.Starter
