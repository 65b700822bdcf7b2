import SignalBox.Json.Quoted

namespace SignalBox.Json

inductive Token where
  | openObject
  | closeObject
  | openArray
  | closeArray
  | colon
  | comma
  | null
  | bool (value : Bool)
  | number (lexeme : Text)
  | string (lexeme : Text)
  | junk
deriving DecidableEq, Repr

namespace Token

def punctuation? : Char → Option Token
  | '{' => some .openObject
  | '}' => some .closeObject
  | '[' => some .openArray
  | ']' => some .closeArray
  | ':' => some .colon
  | ',' => some .comma
  | _ => none

def isSpace (c : Char) : Bool :=
  c = ' ' || c = '\t' || c = '\n' || c = '\r'

def isWordChar (c : Char) : Bool :=
  c.isAlphanum || c = '+' || c = '-' || c = '.'

def isExponent : Text → Bool
  | [] => true
  | c :: rest =>
      let digits :=
        match rest with
        | '+' :: digits => digits
        | '-' :: digits => digits
        | digits => digits
      (c = 'e' || c = 'E') && !digits.isEmpty && digits.all Char.isDigit

def isFraction : Text → Bool
  | '.' :: c :: rest => c.isDigit && isExponent (rest.dropWhile Char.isDigit)
  | rest => isExponent rest

def isUnsigned : Text → Bool
  | [] => false
  | '0' :: rest => isFraction rest
  | c :: rest => c.isDigit && isFraction (rest.dropWhile Char.isDigit)

def isNumber : Text → Bool
  | '-' :: rest => isUnsigned rest
  | rest => isUnsigned rest

def ofWord (word : Text) : Token :=
  if word = "null".toList then .null
  else if word = "true".toList then .bool true
  else if word = "false".toList then .bool false
  else if isNumber word then .number word
  else .junk

def ofLexeme (lexeme : Text) : Token :=
  if Quoted.isLexeme lexeme then .string lexeme else .junk

def row : Text → List Token
  | [] => []
  | c :: rest =>
      if isSpace c then row rest
      else
        match punctuation? c with
        | some token => token :: row rest
        | none =>
            if c = '"' then
              match h : Quoted.span? rest with
              | none => [.junk]
              | some (lexeme, after) =>
                  have := Quoted.length_after_of_span? h
                  ofLexeme lexeme :: row after
            else if isWordChar c then
              have := (List.dropWhile_suffix isWordChar (l := rest)).length_le
              ofWord (c :: rest.takeWhile isWordChar) :: row (rest.dropWhile isWordChar)
            else [.junk]
termination_by s => s.length

end Token

end SignalBox.Json
