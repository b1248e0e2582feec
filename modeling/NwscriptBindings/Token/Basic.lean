import NwscriptBindings.Span
import NwscriptBindings.Text.Quoted

namespace NwscriptBindings

inductive Separator where
  | space | tab | newline
  | openParen | closeParen | openBrace | closeBrace | openBracket | closeBracket
  | semicolon | comma
deriving DecidableEq

namespace Separator

def all : List Separator :=
  [space, tab, newline, openParen, closeParen, openBrace, closeBrace, openBracket, closeBracket,
    semicolon, comma]

def char : Separator → Char
  | space => ' '
  | tab => '\t'
  | newline => '\n'
  | openParen => '('
  | closeParen => ')'
  | openBrace => '{'
  | closeBrace => '}'
  | openBracket => '['
  | closeBracket => ']'
  | semicolon => ';'
  | comma => ','

def ofByte? (b : UInt8) : Option Separator := all.find? (byte ·.char == b)

def isSpace : Separator → Bool
  | space | tab | newline => true
  | _ => false

end Separator

inductive Operator where
  | plus | minus | slash | star | percent | ampersand | pipe
  | bang | tilde | greater | less | equals | question | colon
deriving DecidableEq

namespace Operator

def all : List Operator :=
  [plus, minus, slash, star, percent, ampersand, pipe, bang, tilde, greater, less, equals,
    question, colon]

def char : Operator → Char
  | plus => '+'
  | minus => '-'
  | slash => '/'
  | star => '*'
  | percent => '%'
  | ampersand => '&'
  | pipe => '|'
  | bang => '!'
  | tilde => '~'
  | greater => '>'
  | less => '<'
  | equals => '='
  | question => '?'
  | colon => ':'

def ofByte? (b : UInt8) : Option Operator := all.find? (byte ·.char == b)

end Operator

inductive BasicType where
  | void | int | float | string | object | location | vector
  | itemProperty | effect | talent | event | action
deriving DecidableEq

namespace BasicType

def all : List BasicType :=
  [void, int, float, string, object, location, vector, itemProperty, effect, talent, event, action]

def name : BasicType → String
  | void => "void"
  | int => "int"
  | float => "float"
  | string => "string"
  | object => "object"
  | location => "location"
  | vector => "vector"
  | itemProperty => "itemproperty"
  | effect => "effect"
  | talent => "talent"
  | event => "event"
  | action => "action"

end BasicType

inductive Keyword where
  | ifWord | elseWord | forWord | whileWord | doWord | switchWord
  | breakWord | continueWord | returnWord | defaultWord
  | caseWord | constWord | structWord | basic (type : BasicType)
  | objectInvalid | objectSelf
deriving DecidableEq

namespace Keyword

-- The order numbers the keywords: control words, words that begin a declaration or a label,
-- object constants.
def all : List Keyword :=
  [ifWord, elseWord, forWord, whileWord, doWord, switchWord, breakWord, continueWord, returnWord,
    defaultWord, caseWord, constWord, basic .void, basic .int, basic .float, basic .string,
    structWord, basic .object, basic .location, basic .vector, basic .itemProperty, basic .effect,
    basic .talent, basic .event, basic .action, objectInvalid, objectSelf]

def name : Keyword → String
  | ifWord => "if"
  | elseWord => "else"
  | forWord => "for"
  | whileWord => "while"
  | doWord => "do"
  | switchWord => "switch"
  | breakWord => "break"
  | continueWord => "continue"
  | returnWord => "return"
  | defaultWord => "default"
  | caseWord => "case"
  | constWord => "const"
  | structWord => "struct"
  | basic type => type.name
  | objectInvalid => "OBJECT_INVALID"
  | objectSelf => "OBJECT_SELF"

def spelling (k : Keyword) : List UInt8 := utf8 k.name

-- These words are keywords only where a blank follows them.
def needsBlank : Keyword → Bool
  | caseWord | constWord | structWord | basic _ => true
  | _ => false

def ofSpelling? (word : List UInt8) : Option Keyword := all.find? (·.spelling == word)

def number (k : Keyword) : Nat := all.idxOf k

end Keyword

inductive Comment where
  | line (text : List UInt8)
  | block (text : List UInt8) (closed : Bool)
deriving DecidableEq

-- A string is held without its quotes and with its escapes.
inductive RawLiteral where
  | int (text : List UInt8)
  | float (text : List UInt8)
  | string (body : List UInt8) (closed : Bool)
deriving DecidableEq

def closingMark (mark : String) : Bool → List UInt8
  | true => utf8 mark
  | false => []

inductive LiteralKind where
  | int | float | string
deriving DecidableEq

namespace LiteralKind

def all : List LiteralKind := [int, float, string]

def name : LiteralKind → String
  | int => "int"
  | float => "float"
  | string => "string"

end LiteralKind

namespace RawLiteral

def kind : RawLiteral → LiteralKind
  | int _ => .int
  | float _ => .float
  | string _ _ => .string

def raw : RawLiteral → List UInt8
  | int text => text
  | float text => text
  | string body closed => utf8 "\"" ++ body ++ closingMark "\"" closed

end RawLiteral

inductive Lexeme where
  | directive (text : List UInt8)
  | comment (c : Comment)
  | separator (s : Separator)
  | operator (o : Operator)
  | literal (l : RawLiteral)
  | keyword (k : Keyword)
  | word (text : List UInt8)
deriving DecidableEq

inductive Kind where
  | directive | comment | separator | operator | literal | keyword | word
deriving DecidableEq

namespace Kind

def all : List Kind := [directive, comment, separator, operator, literal, keyword, word]

def name : Kind → String
  | directive => "Preprocessor"
  | comment => "Comment"
  | separator => "Separator"
  | operator => "Operator"
  | literal => "Literal"
  | keyword => "Keyword"
  | word => "Identifier"

end Kind

namespace Comment

def raw : Comment → List UInt8
  | line text => utf8 "//" ++ text
  | block text closed => utf8 "/*" ++ text ++ closingMark "*/" closed

def text : Comment → List UInt8
  | line text => text
  | block text _ => text

end Comment

namespace Lexeme

def kind : Lexeme → Kind
  | directive _ => .directive
  | comment _ => .comment
  | separator _ => .separator
  | operator _ => .operator
  | literal _ => .literal
  | keyword _ => .keyword
  | word _ => .word

def raw : Lexeme → List UInt8
  | directive text => text
  | comment c => c.raw
  | separator s => [byte s.char]
  | operator o => [byte o.char]
  | literal l => l.raw
  | keyword k => k.spelling
  | word text => text

def isSpace : Lexeme → Bool
  | separator s => s.isSpace
  | _ => false

def isTrivia : Lexeme → Bool
  | separator s => s.isSpace
  | comment _ => true
  | _ => false

def defect? : Lexeme → Option String
  | comment (.block _ false) => some "unterminated block comment"
  | literal (.string _ false) => some "unterminated string literal"
  | _ => none

end Lexeme

structure Token where
  lexeme : Lexeme
  span : Span
deriving DecidableEq

namespace Token

-- Stands where there is no token to show.
def blank : Token := ⟨.directive [], .zero⟩

def kind (t : Token) : Kind := t.lexeme.kind

def raw (t : Token) : List UInt8 := t.lexeme.raw

def isSpace (t : Token) : Bool := t.lexeme.isSpace

def isTrivia (t : Token) : Bool := t.lexeme.isTrivia

def isComment (t : Token) : Bool := t.kind == .comment

def describe (t : Token) : List UInt8 := utf8 t.kind.name ++ utf8 " " ++ Quoted.quote t.raw

def rawText (tokens : List Token) : List UInt8 := tokens.flatMap raw

end Token

-- The spelling of entry `n` of a numbered list, or the list's name with the number.
def numberedName (listName : String) (names : List (List UInt8)) (n : Nat) : List UInt8 :=
  names.getD n (utf8 listName ++ utf8 "(" ++ Bytes.ofNat n ++ utf8 ")")

end NwscriptBindings
