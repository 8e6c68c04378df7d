import Vsql.Foundation.Fallible

/-!
# Errors

An operation of the engine ends with a result, with an SQLSTATE error that is
reported to the client, or with a panic that stops the process.
-/

namespace Vsql

inductive SqlState where
  | s0A000
  | s0B000
  | s22001
  | s22003
  | s22012
  | s22025
  | s2200B
  | s2200C
  | s2201B
  | s22029
  | s2200H
  | s23502
  | s23503
  | s23505
  | s23514
  | s24000
  | s25001
  | s25006
  | s27000
  | s2D000
  | s40001
  | s40002
  | s42601
  | s42602
  | s42703
  | s42704
  | s42846
  | s428C9
  | s42883
  | s54000
  | s58030
  | sXX000
  | sXX001
  deriving DecidableEq, Repr

inductive Failure where
  | error (state : SqlState) (message : String)
  | panic (message : String)
  deriving DecidableEq, Repr

def sqlstate40001 (message : String) : Failure :=
  .error .s40001 s!"serialization failure: {message}"

def sqlstate54000 (message : String) : Failure := .error .s54000 message

def sqlstate58030 (message : String) : Failure := .error .s58030 message

def sqlstateXX001 (message : String) : Failure := .error .sXX001 message

def sqlstate0B000 (message : String) : Failure :=
  .error .s0B000 s!"invalid transaction initiation: {message}"

def sqlstate0A000 (message : String) : Failure := .error .s0A000 message

def sqlstate22003 : Failure := .error .s22003 "numeric value out of range"

def sqlstate22012 : Failure := .error .s22012 "division by zero"

def sqlstate2200B : Failure := .error .s2200B "escape character conflict"

def sqlstate2200C : Failure := .error .s2200C "invalid use of escape character"

def sqlstate2201B : Failure := .error .s2201B "invalid regular expression"

def sqlstate22025 : Failure := .error .s22025 "invalid escape sequence"

def sqlstate27000 (message : String) : Failure :=
  .error .s27000 s!"triggered data change violation: {message}"

def sqlstate42601 (message : String) : Failure :=
  .error .s42601 s!"syntax error: {message}"

def sqlstate42602 (message : String) : Failure := .error .s42602 message

def sqlstate22029 : Failure := .error .s22029 "noncharacter in UCS string"

def sqlstate2200H (generatorName : String) : Failure :=
  .error .s2200H s!"sequence generator limit exceeded: {generatorName}"

def sqlstate42883 (message : String) : Failure := .error .s42883 message

end Vsql
