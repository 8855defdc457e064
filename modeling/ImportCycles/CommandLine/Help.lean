/-! What is printed when help is asked for. -/
namespace ImportCycles.CommandLine

def helpLines : List String :=
  ["Detect circular module dependencies in JavaScript source trees by scanning import statements.",
    "",
    "Usage: modcycles [OPTIONS] [ROOT]",
    "",
    "Arguments:",
    "  [ROOT]  Directory to scan",
    "",
    "Options:",
    "  -c, --config <FILE>       Settings file to read in place of modcycles.toml",
    "      --ext <EXT>           Extensions of source files, comma-separated",
    "      --exclude <PATTERN>   Names of directories not to enter, comma-separated",
    "      --alias <PREFIX=DIR>  Directory that stands for the front of a specifier",
    "      --syntax <KIND>       Kinds of import to look for, comma-separated",
    "      --gitignore           Leave out what ignore files name",
    "      --format <FORMAT>     compact, json or dot",
    "      --strict              Exit with code 2 if there is a cycle",
    "      --stats               Print counts",
    "  -v, --verbose             Say more",
    "  -h, --help                Print help",
    "  -V, --version             Print version"]

def help : String := String.join (helpLines.map (· ++ "\n"))

end ImportCycles.CommandLine
