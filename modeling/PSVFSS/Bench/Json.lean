/-
# `Bench.Json` — the JSON values the benchmark scripts read

What `json.loads` gives, as far as the scripts look into it, and how Python
tests, writes and converts it.
-/

namespace PSVFSS

/-- A decoded JSON value.  A float is its `str`, its truth value and what `int`
makes of it, which is nothing for an infinity or a NaN; `other` is a list or an
object with its `str` and its truth value. -/
inductive Json
  | null
  | bool (b : Bool)
  | int (n : Int)
  | float (text : String) (truth : Bool) (truncated : Option Int)
  | str (s : String)
  | other (text : String) (truth : Bool)
  deriving DecidableEq

namespace Json

/-- `bool(value)`. -/
def truthy : Json → Bool
  | null => false
  | bool b => b
  | int n => n ≠ 0
  | float _ truth _ => truth
  | str s => s ≠ ""
  | other _ truth => truth

/-- `str(value)`. -/
def pyStr : Json → String
  | null => "None"
  | bool true => "True"
  | bool false => "False"
  | int n => toString n
  | float text _ _ => text
  | str s => s
  | other text _ => text

/-- What `csv` writes for the value. -/
def cell : Json → String
  | null => ""
  | value => value.pyStr

/-- `isinstance(value, int) and not value < 0`; a `bool` is an `int`. -/
def nonnegInt : Json → Bool
  | bool _ => true
  | int n => 0 ≤ n
  | _ => false

/-! ## `int(value)`

A string is read as an integer literal of decimal digits: blanks around it, one
sign, single underscores between two digits.  (Python also takes the digits and
blanks of other scripts.)  A float loses its fraction.
-/

def isBlank (c : Char) : Bool :=
  c ∈ [' ', '\t', '\n', '\r', '\x0b', '\x0c']

/-- The digits that follow `n`. -/
def digitsAfter (n : Nat) : List Char → Option Nat
  | [] => some n
  | '_' :: c :: cs => if c.isDigit then digitsAfter (10 * n + (c.toNat - 48)) cs else none
  | c :: cs => if c.isDigit then digitsAfter (10 * n + (c.toNat - 48)) cs else none

def readDigits : List Char → Option Nat
  | [] => none
  | c :: cs => if c.isDigit then digitsAfter (c.toNat - 48) cs else none

def readInt (s : String) : Option Int :=
  match ((s.toList.dropWhile isBlank).reverse.dropWhile isBlank).reverse with
  | '-' :: cs => (readDigits cs).map fun n => -(n : Int)
  | '+' :: cs => (readDigits cs).map Int.ofNat
  | cs => (readDigits cs).map Int.ofNat

def pyInt : Json → Option Int
  | int n => some n
  | bool b => some (if b then 1 else 0)
  | float _ _ truncated => truncated
  | str s => readInt s
  | null => none
  | other _ _ => none

example : (["256", " +2_56\n", "-7", "2__5", "", "0x10"].map fun s => (str s).pyInt)
    = [some 256, some 256, some (-7), none, none, none] := by decide

end Json

end PSVFSS
