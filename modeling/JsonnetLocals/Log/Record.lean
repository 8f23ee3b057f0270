/-
  JsonnetLocals.Log.Record — log records and where they come from.
-/

import JsonnetLocals.Text.Case
import JsonnetLocals.Text.Encoding

namespace JsonnetLocals

inductive LogLevel where
  | debug
  | info
  | warning
  | error
  | critical
  deriving DecidableEq, Repr

namespace LogLevel

def value : LogLevel → Nat
  | debug => 10
  | info => 20
  | warning => 30
  | error => 40
  | critical => 50

def label : LogLevel → Text
  | debug => "DEBUG"
  | info => "INFO"
  | warning => "WARNING"
  | error => "ERROR"
  | critical => "CRITICAL"

def all : List LogLevel := [debug, info, warning, error, critical]

/-- The level that a text names, in any case. -/
def ofName? (t : Text) : Option LogLevel := all.find? fun l => l.label == t.upper

end LogLevel

structure Record where
  logger : Text
  level : LogLevel
  message : Text
  deriving DecidableEq, Repr

namespace Record

def line (r : Record) : Text := r.level.label ++ ": " ++ r.message

/-- Whether a log file can take the record. -/
def isWritable (r : Record) : Bool := !(r.logger ++ r.message).codes.any Text.isSurrogate

end Record

/-! ## The loggers of the program's parts, below that of the whole -/

namespace LoggerName

def app : Text := "jsonnet_bundler"

def config : Text := "jsonnet_bundler.core.config"

def renamer : Text := "jsonnet_bundler.core.renamer"

def bundler : Text := "jsonnet_bundler.core.orchestrator"

def reader : Text := "jsonnet_bundler.processors.jsonnet_processor"

def writer : Text := "jsonnet_bundler.core.output_writer"

end LoggerName

end JsonnetLocals
