import Vsql.Lexer.Literals
import Vsql.Lexer.PrintedNames
import Vsql.Values.SqlType

/-!
# Importing rows

The rows of a file are put into the text of an INSERT.  What is written for a cell depends
on the type of its column, and is read back as one literal or one CAST.
-/

namespace Vsql

open Lexer

inductive CellKind where
  | value
  | null
  | missing
  deriving DecidableEq

structure ImportCell where
  kind : CellKind
  value : Text
  deriving DecidableEq

structure ImportColumn where
  name : Text
  typ : DataType
  generated : Bool := false
  deriving DecidableEq

def ImportColumn.sqlName (c : ImportColumn) : Text :=
  Identifier.str { subEntityName := c.name }

def quoteString (s : Text) : Text := '\'' :: (doubled '\'' s ++ ['\''])

/-- The T at byte 10 is a space. -/
def replaceDatetimeT : (offset : Nat) → Text → Text
  | _, [] => []
  | offset, c :: s =>
      if offset = 10 ∧ c = 'T' then ' ' :: s else c :: replaceDatetimeT (offset + c.utf8Size) s

/-- The offset of a time zone has a colon. -/
def separateOffset (t : Text) : Text :=
  match t.reverse with
  | d :: c :: b :: a :: sign :: first :: others =>
      if [a, b, c, d].all isDigit ∧ (sign = '+' ∨ sign = '-') then
        (d :: c :: ':' :: b :: a :: sign :: first :: others).reverse
      else t
  | _ => t

def castableDatetime (s : Text) : Text := separateOffset (replaceDatetimeT 0 s)

def castLiteral (typ : DataType) (value : Text) : Text :=
  "CAST(".toList ++ (quoteString value ++ (" AS ".toList ++
    ({ typ with notNull := false }.str.toList ++ [')'])))

/-- The characters of numbers. -/
def isNumberChar (c : Char) : Bool := isDigit c || ['.', 'e', 'E', '+', '-'].contains c

def sqlLiteral (typ : DataType) (value : Text) : Text :=
  match typ.typ with
  | .varchar | .character => quoteString value
  | .smallint | .integer | .bigint | .decimal | .numeric | .real | .doublePrecision =>
      if value ≠ [] ∧ value.all isNumberChar then value else castLiteral typ value
  | .boolean =>
      if ["TRUE", "FALSE", "UNKNOWN"].contains value.toUpper.str then value.toUpper
      else castLiteral typ value
  | .date | .timeWithoutTimeZone | .timeWithTimeZone | .timestampWithoutTimeZone
  | .timestampWithTimeZone => castLiteral typ (castableDatetime value)

/-- A row of a file, ready to be inserted. -/
structure ImportRow where
  names : Text
  values : Text

def cellText (cell : ImportColumn × ImportCell) : Text :=
  if cell.2.kind = .null then "NULL".toList else sqlLiteral cell.1.typ cell.2.value

/-- The cells that are in the row of a file, which never has more cells than columns. -/
def importCells (columns : List ImportColumn) (row : List ImportCell) :
    List (ImportColumn × ImportCell) :=
  (columns.zip row).filter (·.2.kind ≠ .missing)

def joinComma (texts : List Text) : Text := ", ".toList.intercalate texts

def importRow (columns : List ImportColumn) (row : List ImportCell) (first : ImportColumn) :
    ImportRow :=
  let cells := importCells columns row
  if cells = [] then ⟨first.sqlName, "(DEFAULT)".toList⟩
  else ⟨joinComma (cells.map (·.1.sqlName)), '(' :: (joinComma (cells.map cellText) ++ [')'])⟩

/-- The statement for a batch, which has at least one row. -/
def insertBatch (tableName : Text) (row : ImportRow) (others : List ImportRow) : Text :=
  "INSERT INTO ".toList ++ (tableName ++ (" (".toList ++ (row.names ++ (") VALUES ".toList ++
    joinComma ((row :: others).map (·.values))))))

end Vsql
