import Cron.CommandLine.Arguments

/-!
# What the command line shows about itself

The texts of the program's version and of the help on the program and its tasks, as clap lays them
out.
-/

namespace Cron.CommandLine

/-- The lines of a text, each with a line break behind it. -/
def unlines (lines : List String) : String := String.join (lines.map (· ++ "\n"))

/-- The text on a topic. -/
def Topic.text : Topic → String
  | version => unlines ["chime 0.1.0"]
  | program => unlines
    ["Chime: cron patterns with seconds, evaluated in-process",
     "",
     "Usage: chime [OPTIONS] <COMMAND>",
     "",
     "Commands:",
     "  next  Print the next occurrences of a pattern",
     "  run   Register each pattern with a logging job and run until Ctrl-C",
     "  help  Print this message or the help of the given subcommand(s)",
     "",
     "Options:",
     "  -c, --config <CONFIG>  "
       ++ "Config file path (falls back to CHIME_CONFIG, then ~/.chime/chime.toml)",
     "  -h, --help             Print help",
     "  -V, --version          Print version"]
  | next => unlines
    ["Print the next occurrences of a pattern",
     "",
     "Usage: chime next [OPTIONS] <PATTERN>",
     "",
     "Arguments:",
     "  <PATTERN>  Six-field pattern, e.g. \"0 */15 9-17 * * Mon-Fri\"",
     "",
     "Options:",
     "  -n, --count <COUNT>  How many occurrences to print [default: 5]",
     "      --from <FROM>    Reference time (RFC 3339); defaults to now",
     "      --utc            Evaluate against UTC instead of the configured zone",
     "      --json           Emit a JSON array instead of one timestamp per line",
     "  -h, --help           Print help"]
  | run => unlines
    ["Register each pattern with a logging job and run until Ctrl-C",
     "",
     "Usage: chime run <PATTERNS>...",
     "",
     "Arguments:",
     "  <PATTERNS>...  ",
     "",
     "Options:",
     "  -h, --help  Print help"]
  | help => unlines
    ["Print this message or the help of the given subcommand(s)",
     "",
     "Usage: chime help [COMMAND]...",
     "",
     "Arguments:",
     "  [COMMAND]...  Print help for the subcommand(s)"]

end Cron.CommandLine
