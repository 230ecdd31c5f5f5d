import DependencyRanking.Error

/-!
# Records of what a ranking does

A traced computation gives its outcome together with the records it has written; the records stay
when it fails.
-/
namespace DependencyRanking

inductive LogLevel where
  | debug
  | info
  | warning
  | error
  | critical
deriving DecidableEq, Repr

namespace LogLevel

def severity : LogLevel → Nat
  | debug => 10
  | info => 20
  | warning => 30
  | error => 40
  | critical => 50

def name : LogLevel → String
  | debug => "DEBUG"
  | info => "INFO"
  | warning => "WARNING"
  | error => "ERROR"
  | critical => "CRITICAL"

end LogLevel

inductive LogContent where
  | line (text : String)
  | elapsed (stage : String)
deriving DecidableEq, Repr

structure LogEntry where
  level : LogLevel
  logger : String
  content : LogContent
deriving DecidableEq, Repr

def rootLogger : String := "modrank"

/-- The full name of a logger; names that do not begin with the root's are put below it. -/
def loggerName : Option String → String
  | none => rootLogger
  | some name => if rootLogger.isPrefixOf name then name else rootLogger ++ "." ++ name

def isBelowRoot (logger : String) : Bool :=
  logger = rootLogger || (rootLogger ++ ".").isPrefixOf logger

/-- An outcome with the records written on the way. -/
structure Traced (α : Type) where
  outcome : Except RankingError α
  log : List LogEntry

namespace Traced

variable {α β : Type}

def ofExcept (outcome : Except RankingError α) : Traced α := ⟨outcome, []⟩

def andThen (x : Traced α) (f : α → Traced β) : Traced β :=
  match x.outcome with
  | .ok a => ⟨(f a).outcome, x.log ++ (f a).log⟩
  | .error e => ⟨.error e, x.log⟩

instance : Monad Traced where
  pure a := ⟨.ok a, []⟩
  bind := andThen

def record (level : LogLevel) (logger text : String) : Traced Unit :=
  ⟨.ok (), [⟨level, logger, .line text⟩]⟩

def timed (logger stage : String) (x : Traced α) : Traced α :=
  ⟨x.outcome, x.log ++ [⟨.debug, logger, .elapsed stage⟩]⟩

def records (x : Traced α) : List LogEntry := x.log.filter fun e => isBelowRoot e.logger

theorem outcome_bind (x : Traced α) (f : α → Traced β) :
    (x >>= f).outcome = x.outcome >>= fun a => (f a).outcome := by
  simp only [bind, andThen]
  cases x.outcome <;> rfl

end Traced

structure LogSetup where
  verbose : Bool
  quiet : Bool

def LogSetup.level (s : LogSetup) : LogLevel :=
  if s.quiet then .error else if s.verbose then .debug else .warning

def LogSetup.levelAfter (setups : List LogSetup) : LogLevel :=
  (setups.getLast?.map LogSetup.level).getD .warning

inductive LogTarget where
  | terminal
  | file
deriving DecidableEq, Repr

def logTargets (toFile : Bool) : List LogTarget :=
  if toFile then [.terminal, .file] else [.terminal]

def LogEntry.fileText (time : String) (e : LogEntry) : String :=
  let text := match e.content with
    | .line text => text
    | .elapsed stage => stage ++ " took"
  time ++ " - " ++ e.logger ++ " - " ++ e.level.name ++ " - " ++ text ++ "\n"

def fileAfter (existing time : String) (level : LogLevel) (entries : List LogEntry) : String :=
  (entries.filter fun e => level.severity ≤ e.level.severity).foldl
    (fun text e => text ++ e.fileText time) existing

end DependencyRanking
