import Restyler.Version

/-!
# Help and version texts
-/

namespace Restyler.Cli

def about : Bytes := bytes "jsrestyle applies a fixed sequence of regex rewrites to JavaScript files:
double quotes become single quotes, function/catch/typeof get a space before \"(\",
and \"if (test) return|throw ...\" one-liners are split over two lines.

It is a best-effort pattern rewriter, not a parser: review the result.

"

def usage : Bytes := bytes "Usage:
  jsrestyle [flags] <file|dir>...

"

def flagTable : Bytes := bytes "Flags:
      --check                 do not modify files; exit with status 1 if any file would change
      --color string          colorize output (auto|on|off) (default \"auto\")
      --config string         path to jsrestyle.toml (default: search upward from the working directory)
  -n, --dry-run               do not modify files; show a unified diff of the would-be changes
      --encoding string       character encoding of the files (default from config, else utf-8)
  -h, --help                  help for jsrestyle
      --indent int            indent unit width in spaces for split conditionals (default from config, else 2)
      --quiet                 suppress (no change) lines
      --timings               show timing information
      --trace string          write trace events to a file (- for stderr)
      --trace-format string   trace format (auto|text|ndjson) (default \"auto\")
      --trace-level string    trace level (off|error|phase|detail|debug) (default \"off\")
  -v, --version               version for jsrestyle
"

def help : Bytes := about ++ usage ++ flagTable

def versionLine : Bytes :=
  bytes "jsrestyle version " ++ Version.current.text false ++ [Byte.newline]

end Restyler.Cli
