import TokenCatalog.Json.Basic
import TokenCatalog.Log.Record

/-!
# Settings

What a project can choose: which files are read, how much of the machine is used, where the result
goes and what is reported.
-/

namespace TokenCatalog

inductive Log.Format where
  | text
  | json
  deriving DecidableEq, Repr

def Log.Format.word : Log.Format → String
  | text => "text"
  | json => "json"

inductive Setting where
  | tokenGlob
  | ignorePatterns
  | imageExtensions
  | requireSentinel
  | maxWorkers
  | outputFilename
  | logLevel
  | logFormat
  deriving DecidableEq, Repr

namespace Setting

def all : List Setting :=
  [tokenGlob, ignorePatterns, imageExtensions, requireSentinel, maxWorkers, outputFilename,
    logLevel, logFormat]

def name : Setting → String
  | tokenGlob => "token_glob"
  | ignorePatterns => "ignore_patterns"
  | imageExtensions => "image_extensions"
  | requireSentinel => "require_sentinel"
  | maxWorkers => "max_workers"
  | outputFilename => "output_filename"
  | logLevel => "log_level"
  | logFormat => "log_format"

def fileName : Setting → String
  | tokenGlob => "tokenGlob"
  | ignorePatterns => "ignorePatterns"
  | imageExtensions => "imageExtensions"
  | requireSentinel => "requireSentinel"
  | maxWorkers => "maxWorkers"
  | outputFilename => "outputFilename"
  | logLevel => "logLevel"
  | logFormat => "logFormat"

/-- The setting of a name in a configuration file, by either spelling. -/
def ofFileName? (name : String) : Option Setting :=
  all.find? fun s => s.fileName = name || s.name = name

end Setting

structure Settings where
  tokenGlob : String := "**/*.\x7bcss,scss,less,svg,png,jpeg,gif\x7d"
  ignorePatterns : List String :=
    ["**/node_modules/**", "**/storybook-static/**", "**/*.chunk.*"]
  /-- The extensions of raster files, in lower case and with their dots. -/
  imageExtensions : List String := [".png", ".jpeg", ".jpg", ".gif"]
  /-- Whether stylesheets without a marker are passed over. -/
  requireSentinel : Bool := true
  maxWorkers : Nat := 4
  outputFilename : String := "design-tokens.source.json"
  logLevel : Log.Level := .info
  logFormat : Log.Format := .text
  deriving DecidableEq, Repr

def Settings.default : Settings := {}

end TokenCatalog
