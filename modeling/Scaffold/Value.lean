import Scaffold.Binary64

/-! # Values

Answers, defaults and the fields of descriptor nodes are dynamic values: nothing, truth values,
integers, binary fractions, texts, and lists, tuples, sets and dictionaries of values. A dictionary
keeps its entries in insertion order.

* `truthy`: the values that count as given.
* `number?`: the number that a value stands for; truth values stand for `0` and `1`.
* `hashable`: the values that may be members of a set. A set may be sought among them all the same
  (`seekable`), though it is never found.
* `items?`: the items that a value offers one by one. -/

namespace Scaffold

/-- A dynamic value. -/
inductive Value where
  | none
  | bool (b : Bool)
  | int (i : Int)
  | float (x : Binary64)
  | str (s : String)
  | list (items : List Value)
  | tuple (items : List Value)
  | set (items : List Value)
  | dict (entries : List (Value × Value))
deriving Inhabited

/-- A number, or what stands in for one. -/
inductive Number where
  | rational (q : Rat)
  | infinite (negative : Bool)
  | nan
deriving DecidableEq

namespace Value

/-- The name of the type of a value. -/
def typeName : Value → String
  | .none => "NoneType"
  | .bool _ => "bool"
  | .int _ => "int"
  | .float _ => "float"
  | .str _ => "str"
  | .list _ => "list"
  | .tuple _ => "tuple"
  | .set _ => "set"
  | .dict _ => "dict"

/-- The value is the absence of one. -/
def isNone : Value → Bool
  | .none => true
  | _ => false

/-- A value counts as given unless it is nothing, false, a zero, or empty. -/
def truthy : Value → Bool
  | .none => false
  | .bool b => b
  | .int i => i != 0
  | .float x => !(x.isFinite && x.significand == 0)
  | .str s => s != ""
  | .list items | .tuple items | .set items => !items.isEmpty
  | .dict entries => !entries.isEmpty

/-- The number that a binary fraction stands for. -/
def numberOf (x : Binary64) : Number :=
  if x.isFinite then .rational x.toRat
  else if x.isNaN then .nan
  else .infinite x.isNegative

/-- The number that a value stands for. -/
def number? : Value → Option Number
  | .bool b => some (.rational (if b then 1 else 0))
  | .int i => some (.rational i)
  | .float x => some (numberOf x)
  | _ => Option.none

/-- The value is a NaN, which differs from every value, itself included. -/
def isNaN : Value → Bool
  | .float x => x.isNaN
  | _ => false

mutual
/-- A value may be a member of a set unless it is, or a tuple of it holds, a list, a set or a
dictionary. -/
def hashable : Value → Bool
  | .list _ | .set _ | .dict _ => false
  | .tuple items => allHashable items
  | _ => true
termination_by structural v => v
/-- All of several values may be members of a set. -/
def allHashable : List Value → Bool
  | [] => true
  | v :: vs => hashable v && allHashable vs
termination_by structural vs => vs
end

/-- A value may be sought in a set if it may be a member of one, or is itself a set. -/
def seekable : Value → Bool
  | .set _ => true
  | v => v.hashable

/-- The items that a value offers one by one: the characters of a text, the keys of a dictionary,
the members of a list, tuple or set. -/
def items? : Value → Option (List Value)
  | .str s => some (s.toList.map fun c => .str (String.singleton c))
  | .list items | .tuple items | .set items => some items
  | .dict entries => some (entries.map Prod.fst)
  | _ => Option.none

end Value

end Scaffold
