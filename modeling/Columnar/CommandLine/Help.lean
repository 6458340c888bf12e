namespace Columnar.CommandLine

/-!
The help text.
-/

def helpLines (program : String) : List String :=
  ["Chunkpack - chunked, compressed columnar storage for CSV data",
    "",
    "USAGE:",
    s!"  {program} [options] pack <file.csv> <out_dir> <name:type>...",
    s!"  {program} [options] unpack <dir> <column> <output>",
    s!"  {program} [options] info <dir>",
    s!"  {program} --help",
    "",
    "COMMANDS:",
    "  pack               Ingest a CSV file and write column parts plus a catalog",
    "  unpack             Write one column as text, one value or 'null' per line",
    "  info               Show the catalog and the chunks held by every part",
    "",
    "COLUMN TYPES:",
    "  integer, smallint, double, float, string; anything else is skipped",
    "",
    "OPTIONS:",
    "  --delimiter <c>    Field separator (default ',', 'tab' for tabs)",
    "  --header           First CSV row is a header",
    "  --chunk-rows <n>   Rows per chunk (default 9999)",
    "  --part-bytes <n>   Byte budget of a part file (default 16 MiB)",
    "  --cascade-depth <n> Compression cascade depth, 0 stores chunks uncompressed (default 3)",
    "  --verify           Decompress and compare every chunk while packing",
    "  --log-level <f>    Tracing filter, e.g. 'debug' (default: RUST_LOG or 'info')",
    "  --help, -h         Show this help message",
    "",
    "PATHS:",
    "  Local paths, s3://bucket/key[?anon=true] and memory://key are accepted."]

def help (program : String) : String := "\n".intercalate (helpLines program) ++ "\n"

end Columnar.CommandLine
