/-!
# Usage

What the command line says about itself.
-/

namespace TokenSale.CommandLine

/-- The lines of the description of a program with a name. -/
def usageLines (program : String) : List String :=
  ["Sale Script Tool",
    "",
    "USAGE:",
    s!"    {program} <input> [OPTIONS]",
    "",
    "ARGS:",
    "    <input>    Assembly source, or a compiled script",
    "",
    "OPTIONS:",
    "    -o, --output <file>      Output file path (defaults to <input>.bin)",
    "    -d, --disassemble        Print the script as assembly",
    "    -e, --eval               Evaluate as a sale script and print its outputs",
    "        --account <address>  Buyer address (context slot 0, default zero)",
    "        --units <n>          Requested units (context slot 1, default 0)",
    "        --time <seconds>     Evaluation timestamp (default 0)",
    "        --supply-limit <n>   SUPPLY_LIMIT storage value",
    "        --minted <n>         TOTAL_MINTED storage value",
    "        --supply <n>         TOTAL_SUPPLY storage value",
    "    -h, --help               Print this help message",
    "",
    "EXAMPLES:",
    "    # Compile to default output name",
    s!"    {program} sale.msa",
    "",
    "    # Compile with explicit output",
    s!"    {program} sale.msa -o sale.bin",
    "",
    "    # Inspect a compiled script",
    s!"    {program} sale.bin --disassemble",
    "",
    "    # Price 5 units at a given time",
    s!"    {program} sale.bin --eval --units 5 --time 1700000000 --supply-limit 100"]

/-- The description of a program with a name. -/
def usage (program : String) : String := String.join ((usageLines program).map (· ++ "\n"))

end TokenSale.CommandLine
