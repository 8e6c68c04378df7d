import Vsql.Lexer.Tokens

/-!
# The lexer

The tokens of a statement are read from left to right.  A few words are only key
words in some places, which is decided once all of the tokens are known.
-/

namespace Vsql

namespace Lexer

def isDigit (c : Char) : Bool := '0' ≤ c && c ≤ '9'

def isIdentifierChar (c : Char) (isNotFirst : Bool) : Bool :=
  let yes := ('a' ≤ c && c ≤ 'z') || ('A' ≤ c && c ≤ 'Z') || c == '_'
  if isNotFirst then yes || isDigit c else yes

def isWhiteSpace (c : Char) : Bool :=
  let n := c.toNat
  (0x09 ≤ n && n ≤ 0x0D) || n == 0x20 || n == 0x85 || n == 0xA0 || n == 0x1680 || n == 0x180E ||
    (0x2000 ≤ n && n ≤ 0x200A) || n == 0x2028 || n == 0x2029 || n == 0x202F || n == 0x205F ||
    n == 0x3000

/-- The E of an approximate number, right before its exponent. -/
def isExponent : Text → Bool
  | c :: d :: _ => (c == 'e' || c == 'E') && (isDigit d || d == '+' || d == '-')
  | _ => false

/-! ## Separators -/

def isComment : Text → Bool
  | '-' :: '-' :: _ => true
  | '/' :: '*' :: _ => true
  | _ => false

/-- The text after a bracketed comment.  The comments inside of it have their own ends. -/
def skipBracketed (start : Text) : (depth : Nat) → Text → Except Failure Text
  | depth, '/' :: '*' :: rest => skipBracketed start (depth + 1) rest
  | depth, '*' :: '/' :: rest =>
      if depth = 1 then .ok rest else skipBracketed start (depth - 1) rest
  | depth, _ :: c :: rest => skipBracketed start depth (c :: rest)
  | _, _ => .error (sqlstate42601 s!"unterminated comment: {start.str}")

def skipComment (cs : Text) : Except Failure Text :=
  match cs with
  | '-' :: _ => .ok (cs.dropWhile (· ≠ '\n'))
  | _ => skipBracketed cs 0 cs

/-- The text after the separators that it starts with, and whether they had a new line. -/
def skipSeparatorsFrom : (fuel : Nat) → (hasNewline : Bool) → Text →
    Except Failure (Bool × Text)
  | _, hasNewline, [] => .ok (hasNewline, [])
  | 0, hasNewline, cs => .ok (hasNewline, cs)
  | fuel + 1, hasNewline, c :: cs =>
      if isComment (c :: cs) then do
        let rest ← skipComment (c :: cs)
        let comment := (c :: cs).take ((c :: cs).length - rest.length)
        skipSeparatorsFrom fuel (hasNewline || comment.contains '\n') rest
      else if isWhiteSpace c then
        skipSeparatorsFrom fuel (hasNewline || c == '\n') cs
      else .ok (hasNewline, c :: cs)

def skipSeparators (cs : Text) : Except Failure (Bool × Text) :=
  skipSeparatorsFrom cs.length false cs

/-! ## Strings -/

/-- The characters up to the closing quote, and the text after it.  A doubled quote is
one character. -/
def quoted (quote : Char) : Text → Option (Text × Text)
  | [] => none
  | c :: cs =>
      if c = quote then
        match cs with
        | d :: rest =>
            if d = quote then (quoted quote rest).map fun r => (quote :: r.1, r.2)
            else some ([], d :: rest)
        | [] => some ([], [])
      else (quoted quote cs).map fun r => (c :: r.1, r.2)

/-- A string, which may go on after separators with a new line. -/
def readStringLiteral : (fuel : Nat) → Text → Except Failure (Text × Text)
  | 0, cs => .error (sqlstate42601 s!"unterminated string: {cs.str}")
  | fuel + 1, cs =>
      match quoted '\'' cs.tail with
      | none => .error (sqlstate42601 s!"unterminated string: {cs.str}")
      | some (word, rest) => do
          let (hasNewline, next) ← skipSeparators rest
          if hasNewline && next.head? == some '\'' then do
            let (nextWord, rest) ← readStringLiteral fuel next
            pure (word ++ nextWord, rest)
          else pure (word, rest)

def isHexit (c : Char) : Bool :=
  isDigit c || ('a' ≤ c && c ≤ 'f') || ('A' ≤ c && c ≤ 'F')

def hexitValue (c : Char) : Nat :=
  if 'a' ≤ c then c.toNat - 'a'.toNat + 10
  else if 'A' ≤ c then c.toNat - 'A'.toNat + 10
  else c.toNat - '0'.toNat

/-- The escape character of a Unicode string, and the text after it. -/
def readUnicodeEscapeSpecifier (cs : Text) : Except Failure (Char × Text) := do
  let (_, rest) ← skipSeparators cs
  if rest.length < 7 ∨ Text.toUpper (rest.take 7) ≠ "UESCAPE".toList ∨
      (rest.drop 7).head?.any (isIdentifierChar · true) then
    pure ('\\', cs)
  else
    let (_, rest) ← skipSeparators (rest.drop 7)
    match rest with
    | '\'' :: escape :: '\'' :: after =>
        if isHexit escape || ['+', '\'', '"'].contains escape || isWhiteSpace escape then
          .error (sqlstate42601 s!"invalid Unicode escape character: '{escape}'")
        else pure (escape, after)
    | _ => .error (sqlstate42601 "UESCAPE must be followed by a single character in quotes")

def unescapeUnicode (escape : Char) : (fuel : Nat) → Text → Except Failure Text
  | _, [] => .ok []
  | 0, _ => .ok []
  | fuel + 1, c :: cs =>
      if c ≠ escape then (c :: ·) <$> unescapeUnicode escape fuel cs
      else if cs.head? = some escape then
        (escape :: ·) <$> unescapeUnicode escape fuel cs.tail
      else
        let (digits, width) := if cs.head? = some '+' then (cs.tail, 6) else (cs, 4)
        let hexits := digits.take width
        if hexits.length < width ∨ ¬hexits.all isHexit then
          .error (sqlstate42601 s!"invalid Unicode escape: {Text.str (c :: cs)}")
        else
          let codePoint := hexits.foldl (fun n h => n * 16 + hexitValue h) 0
          if 0x10FFFF < codePoint ∨ (0xD800 ≤ codePoint ∧ codePoint ≤ 0xDFFF) then
            .error (sqlstate42601 s!"invalid Unicode code point: {Text.str (c :: cs.take
              (cs.length - digits.length + width))}")
          else (Char.ofNat codePoint :: ·) <$> unescapeUnicode escape fuel (digits.drop width)

def isNoncharacter (c : Char) : Bool :=
  (0xFDD0 ≤ c.toNat && c.toNat ≤ 0xFDEF) || c.toNat % 0x10000 / 2 == 0x7FFF

def checkNoncharacters (s : Text) : Except Failure Unit :=
  if s.any isNoncharacter then .error sqlstate22029 else .ok ()

/-! ## Tokens -/

/-- What is read in one go: the tokens, the text after them, and whether they can be
the end of tokens that are one. -/
structure Scanned where
  pushed : List Token
  rest : Text
  parameters : Nat
  next : Bool

def scanNumber (parameters : Nat) (cs : Text) : Scanned :=
  let number : Token := ⟨"LITERAL_NUMBER", .text (cs.takeWhile isDigit)⟩
  let rest := cs.dropWhile isDigit
  let (period, rest) : List Token × Text :=
    if isExponent rest.tail && rest.head? == some '.' then
      ([⟨"OPERATOR_PERIOD", .text ".".toList⟩], rest.tail)
    else ([], rest)
  let (e, rest) : List Token × Text :=
    if isExponent rest then ([⟨"E", .none⟩], rest.tail) else ([], rest)
  ⟨number :: period ++ e, rest, parameters, true⟩

def isUnicodeString : Text → Bool
  | u :: '&' :: '\'' :: _ => u == 'U' || u == 'u'
  | _ => false

def scanString (normalizeNfc : Text → Text) (parameters : Nat) (cs : Text) :
    Except Failure Scanned := do
  let start := if isUnicodeString cs then cs.drop 2 else cs
  let (word, rest) ← readStringLiteral start.length start
  let (word, rest) ←
    if isUnicodeString cs then do
      let (escape, rest) ← readUnicodeEscapeSpecifier rest
      let word ← unescapeUnicode escape word.length word
      pure (word, rest)
    else pure (word, rest)
  checkNoncharacters word
  pure ⟨[⟨"LITERAL_STRING", .value (normalizeNfc word)⟩], rest, parameters, true⟩

/-- The quotes of the name stay doubled. -/
def scanDelimited (parameters : Nat) (cs : Text) : Except Failure Scanned :=
  match quoted '"' cs.tail with
  | none => .error (sqlstate42601 s!"unterminated delimited identifier: {cs.str}")
  | some (name, rest) =>
      if name = [] then .error (sqlstate42601 "a delimited identifier cannot be empty")
      else
        let word := cs.take (cs.length - rest.length)
        .ok ⟨[⟨"LITERAL_IDENTIFIER", .chain word⟩], rest, parameters, true⟩

def multiOperator : Text → Option String
  | '<' :: '>' :: _ => some "OPERATOR_NOT_EQUALS"
  | '!' :: '=' :: _ => some "OPERATOR_BANG_EQUALS"
  | '>' :: '=' :: _ => some "OPERATOR_GREATER_EQUALS"
  | '<' :: '=' :: _ => some "OPERATOR_LESS_EQUALS"
  | '|' :: '|' :: _ => some "OPERATOR_DOUBLE_PIPE"
  | _ => none

def singleOperator : Char → Option String
  | '(' => some "OPERATOR_LEFT_PAREN"
  | ')' => some "OPERATOR_RIGHT_PAREN"
  | '*' => some "OPERATOR_ASTERISK"
  | '+' => some "OPERATOR_PLUS"
  | ',' => some "OPERATOR_COMMA"
  | '-' => some "OPERATOR_MINUS"
  | '/' => some "OPERATOR_SOLIDUS"
  | ';' => some "OPERATOR_SEMICOLON"
  | '<' => some "OPERATOR_LESS_THAN"
  | '=' => some "OPERATOR_EQUALS"
  | '>' => some "OPERATOR_GREATER_THAN"
  | '.' => some "OPERATOR_PERIOD"
  | ':' => some "OPERATOR_COLON"
  | _ => none

def wordToken (word : Text) : Token :=
  let upperWord := (Text.toUpper word).str
  if (tokenNumber upperWord).isSome && !isContextual upperWord && !isSymbolName upperWord then
    ⟨upperWord, .text (Text.toUpper word)⟩
  else ⟨"LITERAL_IDENTIFIER", .chain word⟩

/-- The length of the key word or regular identifier at the start of the text. -/
def wordLength (cs : Text) : Nat :=
  match cs with
  | [] => 0
  | c :: rest =>
      if isIdentifierChar c false then 1 + (rest.takeWhile (isIdentifierChar · true)).length else 0

def scanWord (parameters : Nat) (c : Char) (rest : Text) : Except Failure Scanned :=
  let n := wordLength (c :: rest)
  if n = 0 then
    -- A character that does not start a token must be a separator.
    if isWhiteSpace c then .ok ⟨[], rest, parameters, false⟩
    else .error (sqlstate42601 s!"invalid character: {c}")
  else .ok ⟨[wordToken ((c :: rest).take n)], (c :: rest).drop n, parameters, true⟩

def scan (normalizeNfc : Text → Text) (parameters : Nat) (c : Char) (rest : Text) :
    Except Failure Scanned :=
  let cs := c :: rest
  if isComment cs then do
    let rest ← skipComment cs
    pure ⟨[], rest, parameters, false⟩
  else if c = '?' then
    .ok ⟨[⟨"OPERATOR_QUESTION_MARK", .text s!"?{parameters + 1}".toList⟩], rest, parameters + 1,
      false⟩
  else if isDigit c then .ok (scanNumber parameters cs)
  else if c = '\'' || isUnicodeString cs then scanString normalizeNfc parameters cs
  else if c = '"' then scanDelimited parameters cs
  else
    match multiOperator cs, singleOperator c with
    | some op, _ => .ok ⟨[⟨op, .text (cs.take 2)⟩], cs.drop 2, parameters, true⟩
    | none, some op => .ok ⟨[⟨op, .text [c]⟩], rest, parameters, true⟩
    | none, none => scanWord parameters c rest

/-- The number of tokens at the end that are one token, and its name. -/
def tailSubstitution (tokens : List Token) : Nat × String :=
  match tokens.reverse.map (·.token) with
  | "OPERATOR_ASTERISK" :: "OPERATOR_PERIOD" :: _ :: _ => (2, "OPERATOR_PERIOD_ASTERISK")
  | "OPERATOR_ASTERISK" :: "OPERATOR_LEFT_PAREN" :: _ :: _ => (2, "OPERATOR_LEFT_PAREN_ASTERISK")
  | "TRUE" :: "IS" :: _ :: _ => (2, "IS_TRUE")
  | "FALSE" :: "IS" :: _ :: _ => (2, "IS_FALSE")
  | "UNKNOWN" :: "IS" :: _ :: _ => (2, "IS_UNKNOWN")
  | "TRUE" :: "NOT" :: "IS" :: _ :: _ => (3, "IS_NOT_TRUE")
  | "FALSE" :: "NOT" :: "IS" :: _ :: _ => (3, "IS_NOT_FALSE")
  | "UNKNOWN" :: "NOT" :: "IS" :: _ :: _ => (3, "IS_NOT_UNKNOWN")
  | _ => (0, "")

def substituteTail (tokens : List Token) : List Token :=
  let (length, newToken) := tailSubstitution tokens
  if length > 0 then tokens.take (tokens.length - length) ++ [⟨newToken, .none⟩] else tokens

/-- Every step uses a part of the text, so its length is enough fuel. -/
def readTokens (normalizeNfc : Text → Text) :
    (fuel : Nat) → (tokens : List Token) → (parameters : Nat) → Text → Except Failure (List Token)
  | _, tokens, _, [] => .ok tokens
  | 0, tokens, _, _ => .ok tokens
  | fuel + 1, tokens, parameters, c :: cs => do
      let scanned ← scan normalizeNfc parameters c cs
      let tokens := tokens ++ scanned.pushed
      readTokens normalizeNfc fuel (if scanned.next then substituteTail tokens else tokens)
        scanned.parameters scanned.rest

/-! ## Words that depend on the tokens around them -/

def isName (token : Token) (name : String) : Bool :=
  match token.v with
  | .chain identifier =>
      token.token == "LITERAL_IDENTIFIER" && (Text.toUpper identifier).str == name
  | _ => false

/-- NOW() is CURRENT_TIMESTAMP. -/
def replaceNowFunction : (previous : Option Token) → List Token → List Token
  | previous, now :: left :: right :: rest =>
      if isName now "NOW" && left.token == "OPERATOR_LEFT_PAREN" &&
          right.token == "OPERATOR_RIGHT_PAREN" &&
          !(previous.any (·.token == "OPERATOR_PERIOD")) then
        ⟨"CURRENT_TIMESTAMP", .text "CURRENT_TIMESTAMP".toList⟩ ::
          replaceNowFunction (some right) rest
      else now :: replaceNowFunction (some now) (left :: right :: rest)
  | _, tokens => tokens

def endsValue (token : Token) : Bool :=
  if "OPERATOR_".toList.isPrefixOf token.token.toList then
    ["OPERATOR_RIGHT_PAREN", "OPERATOR_QUESTION_MARK"].contains token.token
  else if ["ADD", "CONNECTION", "CONSTRAINTS", "SCHEMA", "SEQUENCE"].contains token.token then false
  else !isReserved token.token ||
    ["CURRENT_CATALOG", "CURRENT_SCHEMA", "END", "FALSE", "TRUE", "UNKNOWN"].contains token.token

def startsValue (token : Token) : Bool :=
  if "OPERATOR_".toList.isPrefixOf token.token.toList then
    ["OPERATOR_LEFT_PAREN", "OPERATOR_QUESTION_MARK"].contains token.token
  else !isReserved token.token ||
    ["CASE", "CAST", "COALESCE", "CURRENT_CATALOG", "CURRENT_SCHEMA", "LOWER", "MAX", "MIN",
      "NULLIF", "SUBSTRING", "TRIM", "UPPER"].contains token.token

/-- The tokens before are in reverse order. -/
def isIlikeOperator (before after : List Token) : Bool :=
  match before, after with
  | last :: others, next :: _ =>
      let left := if last.token = "NOT" then others.headD last else last
      endsValue left && startsValue next
  | _, _ => false

/-- The tokens that an expression can directly follow. -/
def beforeExpression : List String := [
  "ALL", "AND", "ASYMMETRIC", "BETWEEN", "BY", "CASE", "DISTINCT", "ELSE", "FOR", "FROM", "HAVING",
  "NOT", "ON", "OPERATOR_ASTERISK", "OPERATOR_BANG_EQUALS", "OPERATOR_COMMA", "OPERATOR_EQUALS",
  "OPERATOR_GREATER_EQUALS", "OPERATOR_GREATER_THAN", "OPERATOR_LEFT_PAREN",
  "OPERATOR_LESS_EQUALS", "OPERATOR_LESS_THAN", "OPERATOR_MINUS", "OPERATOR_NOT_EQUALS",
  "OPERATOR_PERIOD", "OPERATOR_PLUS", "OPERATOR_SOLIDUS", "OR", "SELECT", "SYMMETRIC", "THEN",
  "VALUES", "WHEN", "WHERE"]

def isLimitClause (before : List Token) (token : Token) (after : List Token) : Bool :=
  match after with
  | [] => false
  | next :: others =>
      isName token "LIMIT" &&
        let second := (others.head?.map (·.token)).getD "$end"
        if next.token = "OPERATOR_PLUS" ∨ next.token = "OPERATOR_MINUS" then
          match before with
          | [] => false
          | last :: _ =>
              (second == "LITERAL_NUMBER" || second == "OPERATOR_PERIOD") &&
                !beforeExpression.contains last.token
        else if next.token = "DATE" ∨ next.token = "TIME" ∨ next.token = "TIMESTAMP" then
          second == "LITERAL_STRING"
        else if next.token = "OPERATOR_PERIOD" then second == "LITERAL_NUMBER"
        else ["LITERAL_NUMBER", "LITERAL_STRING", "TRUE", "FALSE", "UNKNOWN"].contains next.token

/-- Each token may become another one, for the tokens before it that have been through
this, and those after it that have not. -/
def rewriteTokens (rewrite : List Token → Token → List Token → Token) :
    (before : List Token) → List Token → List Token
  | _, [] => []
  | before, token :: after =>
      let token := rewrite before token after
      token :: rewriteTokens rewrite (token :: before) after

def rewriteIlike (before : List Token) (token : Token) (after : List Token) : Token :=
  if token.token = "ILIKE" ∧ isIlikeOperator before after then ⟨"OPERATOR_ILIKE", token.v⟩
  else token

def rewriteLimit (before : List Token) (token : Token) (after : List Token) : Token :=
  if isLimitClause before token after then ⟨"LIMIT", .text "LIMIT".toList⟩ else token

def trimSemicolons (s : Text) : Text :=
  ((s.dropWhile (· == ';')).reverse.dropWhile (· == ';')).reverse

def finishTokens (tokens : List Token) : List Token :=
  rewriteTokens rewriteLimit [] (rewriteTokens rewriteIlike [] (replaceNowFunction none tokens))

def tokenize (normalizeNfc : Text → Text) (sqlStmt : Text) : Except Failure (List Token) := do
  let cs := trimSemicolons sqlStmt
  let tokens ← readTokens normalizeNfc cs.length [] 0 cs
  pure (finishTokens tokens)

end Lexer
end Vsql
