import Mathlib.Logic.Function.Basic
import S4LibLite.Common.CStr

/-!
# The logger (`s4logger.h`, `s4logger.cpp`)

`s4logger` keeps the file loggers it has made in `_file_loggers`, under their names; spdlog
keeps every logger in a registry, under its name too. Of spdlog only this is used: `create`
throws when the name is registered, `drop` unregisters it, `get` returns what is registered.

An operation answers `none` when it throws: the exception leaves `init(cfg) noexcept`, and
the process ends. Flushing and error handlers are left out, they change nothing here.
-/

namespace S4LibLite.Logger

/-! ## spdlog -/

/-- `spdlog::level::level_enum`. -/
inductive LogLevel
  | trace | debug | info | warn | err | critical | off
deriving DecidableEq, Repr

/-- The sink of a logger. -/
inductive Sink
  | stdoutColor
  | rotatingFile (filename : Bytes) (maxSize maxFiles : UInt64)
deriving DecidableEq, Repr

/-- A `std::shared_ptr<spdlog::logger>`: which logger, and what never changes of it. -/
structure LoggerPtr where
  id : ℕ
  name : Bytes
  sink : Sink
deriving DecidableEq, Repr

/-- `((rotating_file_sink_mt*)sinks()[0].get())->filename()`. -/
def LoggerPtr.filename (p : LoggerPtr) : Option Bytes :=
  match p.sink with
  | .stdoutColor => none
  | .rotatingFile filename _ _ => some filename

/-- What can be set of a logger. -/
structure Settings where
  pattern : Bytes
  level : LogLevel
deriving DecidableEq, Repr

/-! ## State -/

/-- `cfg_t`, with its defaults. -/
structure Cfg where
  enableConsole : Bool := true
  enableFileAll : Bool := false
  enableFileAllPure : Bool := true
  enableFileErr : Bool := false
  enableFileErrPure : Bool := true
  level : LogLevel := .info
  maxFileSizeMB : UInt64 := 9999
  maxFiles : UInt64 := 10
  savePath : Bytes := lit "./logs"
  filePreamble : Bytes := lit "S4"
deriving DecidableEq, Repr

/-- An `s4logger`, with spdlog's registry. `created` numbers the loggers. -/
structure S4Logger where
  param : Cfg
  fileAll : Option LoggerPtr
  fileAllPure : Option LoggerPtr
  fileErr : Option LoggerPtr
  fileErrPure : Option LoggerPtr
  fileLoggers : Bytes → Option LoggerPtr
  console : Option LoggerPtr
  fileFolder : Bytes
  registry : Bytes → Option LoggerPtr
  settings : ℕ → Settings
  created : ℕ

/-- spdlog's default logger: it is registered under the empty name. -/
def defaultLogger : LoggerPtr := ⟨0, [], .stdoutColor⟩

/-- A constructed `s4logger`. -/
def S4Logger.fresh : S4Logger where
  param := {}
  fileAll := none
  fileAllPure := none
  fileErr := none
  fileErrPure := none
  fileLoggers := fun _ => none
  console := none
  fileFolder := lit "."
  registry := Function.update (fun _ => none) [] (some defaultLogger)
  settings := fun _ => ⟨[], .info⟩
  created := 1

/-- `_time_base`: `"null"`, or a time that ends in its seconds. -/
structure TimeBase where
  text : Bytes
  ends : text = lit "null" ∨ ∃ s c, text = s ++ [c] ∧ isDigit c = true

/-! ## Paths -/

/-- `std::filesystem::path::operator/`. -/
def pathAppend (p q : Bytes) : Bytes :=
  if q.head? = some 47 then q
  else if p = [] ∨ p.getLast? = some 47 then p ++ q
  else p ++ [47] ++ q

/-- The name of a file logger. -/
def loggerName (preamble : Bytes) (base : TimeBase) (pure error : Bool) : Bytes :=
  preamble ++ base.text ++ (if error then lit "_err" else []) ++ (if pure then lit "_pure" else [])

/-- The file behind it. -/
def filePath (folder preamble : Bytes) (base : TimeBase) (pure error : Bool) : Bytes :=
  pathAppend folder (loggerName preamble base pure error ++ lit ".log")

/-! ## Operations -/

namespace S4Logger

/-- `spdlog::create`. -/
def create (name : Bytes) (sink : Sink) (s : S4Logger) : Option (LoggerPtr × S4Logger) :=
  if (s.registry name).isSome then none
  else
    let p := ⟨s.created, name, sink⟩
    some (p, { s with
      registry := Function.update s.registry name (some p)
      created := s.created + 1 })

/-- `spdlog::drop`. -/
def drop (name : Bytes) (s : S4Logger) : S4Logger :=
  { s with registry := Function.update s.registry name none }

/-- `set_pattern`. -/
def setPattern (p : LoggerPtr) (pattern : Bytes) (s : S4Logger) : S4Logger :=
  { s with settings := Function.update s.settings p.id { s.settings p.id with pattern := pattern } }

/-- `set_level`. -/
def setLevel (p : LoggerPtr) (level : LogLevel) (s : S4Logger) : S4Logger :=
  { s with settings := Function.update s.settings p.id { s.settings p.id with level := level } }

/-- `init_console`. -/
def initConsole (s : S4Logger) : Option S4Logger :=
  if s.param.enableConsole then
    match s.console with
    | some p => some (s.setLevel p s.param.level)
    | none =>
      (s.create (lit "console") .stdoutColor).map fun (p, s) =>
        ({ s with console := some p }.setPattern p
          (lit "[%Y-%m-%d %H:%M:%S.%e] [%l] %^%v%$")).setLevel p s.param.level
  else if s.console.isSome then some { s.drop (lit "console") with console := none }
  else some s

end S4Logger

/-- What the file system answers in `init_file_folder`. -/
structure FolderCalls where
  isThere : Bool
  isDirectory : Bool
  createDirectory : Bool
  createDirectories : Bool
deriving DecidableEq, Repr

/-- The folder is there or can be made. -/
def FolderCalls.Creatable (fs : FolderCalls) : Prop :=
  if fs.isThere then fs.isDirectory = true ∨ fs.createDirectory = true
  else fs.createDirectories = true

namespace S4Logger

/-- `init_file_folder`. -/
def initFileFolder (fs : FolderCalls) (s : S4Logger) : Option S4Logger :=
  let s := { s with fileFolder := s.param.savePath }
  if fs.isThere then
    if !fs.isDirectory then
      if !fs.createDirectory then none else some s
    else some s
  else if !fs.createDirectories then none
  else some s

variable (base : TimeBase)

/-- The end of `init_file`, on an enabled file. -/
def setUpFile (pure error : Bool) (p : LoggerPtr) (s : S4Logger) : S4Logger :=
  let s := if pure then s.setPattern p (lit "[%l] %^%v%$")
    else s.setPattern p (lit "[%Y-%m-%d %H:%M:%S.%e] [%l] %^%v%$")
  if error then s.setLevel p .err else s.setLevel p s.param.level

/-- `init_file` where there is no logger to go on with. -/
def createFile (name path : Bytes) (pure error : Bool) (s : S4Logger) : Option S4Logger :=
  (s.create name (.rotatingFile path (s.param.maxFileSizeMB * (1024 * 1024)) s.param.maxFiles)).map
    fun (p, s) =>
      { s with fileLoggers := Function.update s.fileLoggers name (some p) }.setUpFile pure error p

/-- `init_file`. -/
def initFile (preamble : Bytes) (enable pure error : Bool) (s : S4Logger) : Option S4Logger :=
  let name := loggerName preamble base pure error
  let path := filePath s.fileFolder preamble base pure error
  if !enable then
    if (s.fileLoggers name).isSome then
      some { s.drop name with fileLoggers := Function.update s.fileLoggers name none }
    else some s
  else
    match s.fileLoggers name with
    | none => s.createFile name path pure error
    | some p =>
      match s.registry name with
      | none => none
      | some q =>
        -- redirect: the logger is forgotten here, and stays registered
        if q.filename ≠ some path then
          { s with fileLoggers := Function.update s.fileLoggers name none }.createFile
            name path pure error
        else some (s.setUpFile pure error p)

/-- `init_files_all`. -/
def initFilesAll (s : S4Logger) : Option S4Logger :=
  (s.initFile base s.param.filePreamble s.param.enableFileAll false false).bind fun s =>
  (s.initFile base s.param.filePreamble s.param.enableFileAllPure true false).map fun s =>
    { s with
      fileAll := s.fileLoggers (s.param.filePreamble ++ base.text)
      fileAllPure := s.fileLoggers (s.param.filePreamble ++ base.text ++ lit "_pure") }

/-- `init_files_err`. -/
def initFilesErr (s : S4Logger) : Option S4Logger :=
  (s.initFile base s.param.filePreamble s.param.enableFileErr false true).bind fun s =>
  (s.initFile base s.param.filePreamble s.param.enableFileErrPure true true).map fun s =>
    { s with
      fileErr := s.fileLoggers (s.param.filePreamble ++ base.text ++ lit "_err")
      fileErrPure := s.fileLoggers (s.param.filePreamble ++ base.text ++ lit "_err_pure") }

/-- `init()`. -/
def init (fs : FolderCalls) (s : S4Logger) : Option S4Logger :=
  s.initConsole.bind fun s => (s.initFileFolder fs).bind fun s =>
    (s.initFilesAll base).bind (initFilesErr base)

/-- `init(cfg)`. -/
def initCfg (cfg : Cfg) (fs : FolderCalls) (s : S4Logger) : Option S4Logger :=
  { s with param := cfg }.init base fs

/-- A sequence of `init(cfg)` calls. -/
def initCfgs : List (Cfg × FolderCalls) → S4Logger → Option S4Logger
  | [], s => some s
  | c :: cs, s => (s.initCfg base c.1 c.2).bind (initCfgs cs)

end S4Logger

end S4LibLite.Logger
