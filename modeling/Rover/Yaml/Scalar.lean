import Rover.Number.Reading
import Rover.Text.Base64
import Rover.Yaml.Tag
import Rover.Yaml.Timestamp

/-!
What a scalar means. A plain one is null, a truth value, a timestamp, an integer, a float or,
failing that, a string; a quoted one is a string. A tag demands one of these types, and what does
not have that type is refused. Other tags leave the text as it is.
-/

namespace Rover
namespace Yaml

inductive Scalar where
  | null
  | bool (truth : Bool)
  | int (number : Int)
  | float (number : Float)
  | timestamp
  | string (content : Text)

namespace Scalar

def tag : Scalar → Text
  | null => text "!!null"
  | bool _ => text "!!bool"
  | int _ => text "!!int"
  | float _ => text "!!float"
  | timestamp => text "!!timestamp"
  | string _ => text "!!str"

def word? (value : String) : Option Scalar :=
  if value ∈ ["true", "True", "TRUE"] then some (bool true)
  else if value ∈ ["false", "False", "FALSE"] then some (bool false)
  else if value ∈ ["", "~", "null", "Null", "NULL"] then some null
  else if value ∈ [".nan", ".NaN", ".NAN"] then some (float Binary64.nan)
  else if value ∈ [".inf", ".Inf", ".INF", "+.inf", "+.Inf", "+.INF"] then
    some (float (Binary64.infinity false))
  else if value ∈ ["-.inf", "-.Inf", "-.INF"] then some (float (Binary64.infinity true))
  else none

def digits? (base : Nat) (digits : List Char) : Option Nat :=
  digits.foldlM
    (fun total digit => (hexDigit? digit).bind fun value =>
      if value < base then some (base * total + value) else none)
    0

/-- A number whose base is told by how it starts. -/
def natural? : List Char → Option Nat
  | [] => none
  | '0' :: mark :: first :: rest =>
      match mark.toLower with
      | 'x' => digits? 16 (first :: rest)
      | 'b' => digits? 2 (first :: rest)
      | 'o' => digits? 8 (first :: rest)
      | _ => digits? 8 (mark :: first :: rest)
  | '0' :: rest => digits? 8 rest
  | rest => digits? 10 rest

/-- An integer of 64 bits; without a sign it may use all of them. -/
def bounded? (negative signed : Bool) (size : Nat) : Option Int :=
  if negative then if Int64.minValue.toInt ≤ -size then some (-size) else none
  else if size ≤ Int64.maxValue.toInt ∨ (signed = false ∧ size < UInt64.size) then some size
  else none

def isSign (char : Char) : Bool :=
  char == '+' || char == '-'

/-- An integer in any base. A sign may also stand after the mark of a base. -/
def integer? (chars : List Char) : Option Int :=
  let signed := chars.head?.any isSign
  let (negative, rest) := Reading.sign chars
  match (natural? rest).bind (bounded? negative signed) with
  | some number => some number
  | none =>
      match rest with
      | '0' :: mark :: others =>
          if chars.head? ≠ some '+' ∧ (mark = 'b' ∨ mark = 'o') ∧
            (negative → ¬others.head?.any isSign)
          then
            let (inner, shown) := Reading.sign others
            if shown.isEmpty then none
            else
              (digits? (if mark = 'b' then 2 else 8) shown).bind
                (bounded? (negative || inner) (others.head?.any isSign))
          else none
      | _ => none

def isFloat (chars : List Char) : Bool :=
  let body := (Reading.sign chars).2
  let whole := body.takeWhile Char.isDigit
  let afterWhole := body.dropWhile Char.isDigit
  let (fraction, afterFraction) := match afterWhole with
    | '.' :: rest => (rest.takeWhile Char.isDigit, rest.dropWhile Char.isDigit)
    | rest => ([], rest)
  (!whole.isEmpty || !fraction.isEmpty) && match afterFraction with
    | [] => true
    | letter :: rest =>
        (letter == 'e' || letter == 'E') && !(Reading.sign rest).2.isEmpty
          && (Reading.sign rest).2.all Char.isDigit

/-- A number that starts with a digit or a sign; underscores in it do not count. -/
def number? (chars : List Char) : Option Scalar :=
  let shown := chars.filter (· != '_')
  match integer? shown with
  | some number => some (int number)
  | none =>
      if isFloat shown then (Reading.float? (Text.ofChars shown)).map float else none

def ofPlain (value : Text) : Scalar :=
  let chars := value.chars
  match word? (String.ofList chars) with
  | some scalar => scalar
  | none =>
      match chars with
      | [] => null
      | first :: _ =>
          if first = '.' then ((Reading.float? value).map float).getD (string value)
          else if isTimestamp chars then timestamp
          else if first.isDigit || isSign first then (number? chars).getD (string value)
          else string value

def floatOfInt (number : Int) : Float :=
  (Binary64.ofRatio? (number < 0) number.natAbs 1).getD 0

def isTestable (tag : Text) : Bool :=
  ["!!bool", "!!int", "!!float", "!!null", "!!timestamp"].map text |>.contains tag

/-- What a text means under a tag; nothing if it is not what the tag demands. -/
def ofTagged? (tag value : Text) : Option Scalar :=
  if tag = text "!!binary" then (Base64.decode? value).map string
  else if isTestable tag then
    let found := ofPlain value
    if found.tag = tag then some found
    else
      match found with
      | int number =>
          if tag = text "!!float" ∧ number ≤ Int64.maxValue.toInt then
            some (float (floatOfInt number))
          else none
      | _ => none
  else some (string value)

def mergeSign : Text := text "<<"

def mergeTag : Text := text "!!merge"

/-- The tag of a scalar: the one given, or else the one that its text and style imply. -/
def impliedTag (value : Text) (plain : Bool) (tag : Option Text) : Text :=
  match tag with
  | some tag => tag
  | none =>
      if !plain then text "!!str"
      else if value = mergeSign then mergeTag
      else (ofPlain value).tag

def meaning? (value : Text) (plain : Bool) (tag : Option Text) : Option Scalar :=
  ofTagged? (impliedTag value plain tag) value

end Scalar
end Yaml
end Rover
