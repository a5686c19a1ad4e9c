import Lox.Number.Display
import Lox.Token.Basic

/-! The values of the language. Equality never crosses kinds and compares numbers
as IEEE does; only `nil` and `false` count as false. -/

namespace Lox

inductive Value where
  | nil
  | bool (value : Bool)
  | number (value : Float)
  | string (text : String)
  deriving DecidableEq

def Literal.toValue : Literal → Value
  | number x => .number x
  | string s => .string s

namespace Value

def truthy : Value → Bool
  | nil | bool false => false
  | _ => true

def number? : Value → Option Float
  | number x => some x
  | _ => none

def typeName : Value → String
  | nil => "nil"
  | bool _ => "bool"
  | number _ => "number"
  | string _ => "string"

def equals : Value → Value → Bool
  | nil, nil => true
  | bool a, bool b => a == b
  | number x, number y => x == y
  | string s, string t => s == t
  | _, _ => false

def display : Value → String
  | nil => "nil"
  | bool true => "true"
  | bool false => "false"
  | number x => displayNumber x
  | string s => s

end Value

end Lox
