import Vsql.Lexer.Names
import Vsql.Rows.Contents
import Vsql.Sequences.Generator

/-!
# The stored definition of a sequence

The definition is the text of a CREATE SEQUENCE, with each option on its own line.  The
value is stored by itself.
-/

namespace Vsql

open Foundation Lexer Identifier Rows

/-! ## Writing -/

def i64Text (x : Int64) : Text := (toString x.toInt).toList

namespace Sequence

/-- A string is its bytes, so the definition is the text itself. -/
def definitionBytes (s : Sequence) : Text :=
  let parts := ["CREATE SEQUENCE ".toList ++ s.name.storageSql,
    "START WITH ".toList ++ i64Text s.startValue,
    "INCREMENT BY ".toList ++ i64Text s.incrementBy]
  let parts := if s.hasMinValue then parts ++ ["MINVALUE ".toList ++ i64Text s.minValue] else parts
  let parts := if s.hasMaxValue then parts ++ ["MAXVALUE ".toList ++ i64Text s.maxValue] else parts
  let parts := if s.cycle then parts ++ ["CYCLE".toList] else parts
  "\n  ".toList.intercalate parts

/-- The flags are only written when they are needed. -/
def valueBytes (s : Sequence) : Bytes :=
  writeInt 8 s.currentValue.toInt ++
    ((if s.exhausted || s.unused then writeBool s.exhausted else []) ++
      if s.unused then writeBool true else [])

end Sequence

/-! ## The parser -/

/-- `numeric_literal` of an integer.  It has the smallest type that it fits in. -/
def numericLiteral (negative : Bool) (x : Text) : Except Failure Value :=
  let magnitude := Nat.ofDigitChars 10 x 0
  let n : Int := if negative then -magnitude else magnitude
  if maxNumericPrecision < (x.dropWhile (· == '0')).length then
    .error (sqlstate42601 s!"numeric literal has more than {maxNumericPrecision} digits")
  else if -2 ^ 15 ≤ n ∧ n < 2 ^ 15 then Value.ofContent { typ := .smallint } (.int n)
  else if -2 ^ 31 ≤ n ∧ n < 2 ^ 31 then Value.ofContent { typ := .integer } (.int n)
  else if -2 ^ 63 ≤ n ∧ n < 2 ^ 63 then Value.ofContent { typ := .bigint } (.int n)
  else
    let typ : DataType := { typ := .numeric, size := x.length }
    Value.ofContent typ (.numeric ⟨typ, n, 1⟩)

/-- The text of the number is read again with its sign. -/
def signedNumericLiteral (negative : Bool) (v : Value) : Except Failure Value :=
  numericLiteral negative (toString v.asExactNumeric.numerator).toList

/-- `signed_numeric_literal` of the grammar.  Definitions only have integers. -/
def parseSignedNumber : List Token → Option (Except Failure Value × List Token)
  | ⟨"LITERAL_NUMBER", .text x⟩ :: rest => some (numericLiteral false x, rest)
  | ⟨"OPERATOR_PLUS", _⟩ :: ⟨"LITERAL_NUMBER", .text x⟩ :: rest =>
      some (numericLiteral false x >>= signedNumericLiteral false, rest)
  | ⟨"OPERATOR_MINUS", _⟩ :: ⟨"LITERAL_NUMBER", .text x⟩ :: rest =>
      some (numericLiteral false x >>= signedNumericLiteral true, rest)
  | _ => none

/-- An option with a value after its key words. -/
def parseOptionValue (option : Value → SequenceGeneratorOption) (tokens : List Token) :
    Option (Except Failure SequenceGeneratorOption × List Token) :=
  (parseSignedNumber tokens).map fun (v, rest) => (option <$> v, rest)

/-- `common_sequence_generator_option` of the grammar. -/
def parseSequenceOption :
    List Token → Option (Except Failure SequenceGeneratorOption × List Token)
  | ⟨"START", _⟩ :: ⟨"WITH", _⟩ :: rest => parseOptionValue .startWith rest
  | ⟨"INCREMENT", _⟩ :: ⟨"BY", _⟩ :: rest => parseOptionValue .incrementBy rest
  | ⟨"MAXVALUE", _⟩ :: rest => parseOptionValue (.maxvalue ∘ some) rest
  | ⟨"MINVALUE", _⟩ :: rest => parseOptionValue (.minvalue ∘ some) rest
  | ⟨"CYCLE", _⟩ :: rest => some (.ok (.cycle true), rest)
  | ⟨"NO", _⟩ :: ⟨"MAXVALUE", _⟩ :: rest => some (.ok (.maxvalue none), rest)
  | ⟨"NO", _⟩ :: ⟨"MINVALUE", _⟩ :: rest => some (.ok (.minvalue none), rest)
  | ⟨"NO", _⟩ :: ⟨"CYCLE", _⟩ :: rest => some (.ok (.cycle false), rest)
  | _ => none

/-- `sequence_generator_options` of the grammar, or none of them. -/
def parseSequenceOptions : (fuel : Nat) → List Token →
    Option (Except Failure (List SequenceGeneratorOption))
  | _, [] => some (.ok [])
  | 0, _ => none
  | fuel + 1, tokens => do
      let (option, rest) ← parseSequenceOption tokens
      let options ← parseSequenceOptions fuel rest
      some (return (← option) :: (← options))

/-- `schema_qualified_name` of the grammar, with that many qualifiers at most. -/
def parseSchemaQualifiedName : (qualifiers : Nat) → List Token → Option (Text × List Token)
  | qualifiers + 1, token :: ⟨"OPERATOR_PERIOD", _⟩ :: rest => do
      let first ← identifierText token
      let (others, rest) ← parseSchemaQualifiedName qualifiers rest
      some (first ++ '.' :: others, rest)
  | _, token :: rest => (identifierText token).map (·, rest)
  | _, [] => none

def checkSchemaName (name : Text) : Except Failure Unit :=
  if name = "DEFINITION_SCHEMA".toList then
    .error (sqlstate42601 "DEFINITION_SCHEMA cannot be used as a schema name")
  else .ok ()

/-- `new_identifier2` -/
def newTableIdentifier (s : Text) : Except Failure Identifier := do
  match ← splitIdentifierParts s with
  | [entityName] => pure { entityName := entityName }
  | [schemaName, entityName] =>
      checkSchemaName schemaName
      pure { schemaName := schemaName, entityName := entityName }
  | [catalogName, schemaName, entityName] =>
      checkSchemaName schemaName
      pure { catalogName := catalogName, schemaName := schemaName, entityName := entityName }
  | _ => throw (sqlstate42602 s!"invalid identifier: {s.str}")

def parseSequenceNameAndOptions (ifNotExists : Bool) (tokens : List Token) :
    Option (Except Failure SequenceGeneratorDefinition) := do
  let (name, rest) ← parseSchemaQualifiedName 2 tokens
  let options ← parseSequenceOptions rest.length rest
  some (return {
    name := ← newTableIdentifier name
    options := ← options
    ifNotExists := ifNotExists })

/-- `sequence_generator_definition` of the grammar. -/
def parseSequenceDefinition :
    List Token → Option (Except Failure SequenceGeneratorDefinition)
  | ⟨"CREATE", _⟩ :: ⟨"SEQUENCE", _⟩ :: ⟨"IF", _⟩ :: ⟨"NOT", _⟩ :: ⟨"EXISTS", _⟩ :: rest =>
      parseSequenceNameAndOptions true rest
  | ⟨"CREATE", _⟩ :: ⟨"SEQUENCE", _⟩ :: rest => parseSequenceNameAndOptions false rest
  | _ => none

/-! ## Reading -/

def hasMore : ByteReader Bool := fun data => .ok (!data.isEmpty, data)

/-- A flag that is not written is not set. -/
def readFlag : ByteReader Bool := do
  if ← hasMore then readBool else pure false

def Sequence.withValue (s : Sequence) : ByteReader Sequence := do
  let currentValue ← readInt 8
  let exhausted ← readFlag
  let unused ← readFlag
  pure { s with currentValue := .ofInt currentValue, exhausted := exhausted, unused := unused }

/-- A text that is not parsed as the definition of a sequence is refused. -/
def newSequenceFromBytes (normalizeNfc : Text → Text) (definitionData : Text)
    (valueData : Bytes) (tid : Nat) : Except Failure Sequence := do
  match parseSequenceDefinition (← tokenize normalizeNfc definitionData) with
  | some stmt =>
      let stmt ← stmt
      let s := stmt.sequence
        { schemaName := stmt.name.schemaName, entityName := stmt.name.entityName }
      let (s, _) ← { s with tid := tid }.withValue.run valueData
      pure s.withOldImplicitLimits
  | none => throw (sqlstateXX001 s!"not a sequence definition: {definitionData.str}")

end Vsql
