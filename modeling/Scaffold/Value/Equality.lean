import Scaffold.Value

/-! # Equality of values

* `same`: two values hold the same. Numbers are compared as exact numbers, so `true`, `1` and `1.0`
  are the same; lists and tuples are compared in order, sets and dictionaries without it; a list is
  never the same as a tuple.
* `equal`: two values compare equal. This is `same` except that NaN is equal to nothing, so that a
  look-up (`among`, `putEntry`) never finds it.

Dictionaries are the same when each entry of either has an entry of the same key and value in the
other; sets likewise. A table of all pairs decides this (`coversBoth_map`), so that no pair is
compared more than once. -/

namespace Scaffold.Value

/-- Two values stand for the same number. -/
def sameNumber (a b : Value) : Bool :=
  match a.number?, b.number? with
  | some m, some n => m == n
  | _, _ => false

/-- Every row and every column of a table of `n` columns holds a `true`. -/
def coversBoth (n : Nat) (rows : List (List Bool)) : Bool :=
  rows.all (·.any id) && (rows.foldr (List.zipWith or) (List.replicate n false)).all id

mutual
/-- Two values hold the same. -/
def same : Value → Value → Bool
  | .none, .none => true
  | .str s, .str t => s == t
  | .list xs, .list ys => sameInOrder xs ys
  | .tuple xs, .tuple ys => sameInOrder xs ys
  | .set xs, .set ys => coversBoth ys.length (sameTable xs ys)
  | .dict xs, .dict ys => coversBoth ys.length (sameEntryTable xs ys)
  | a, b => sameNumber a b
termination_by structural a => a
/-- The values of two lists are the same, pair by pair. -/
def sameInOrder : List Value → List Value → Bool
  | [], [] => true
  | x :: xs, y :: ys => same x y && sameInOrder xs ys
  | _, _ => false
termination_by structural xs => xs
/-- The table that tells which values of the first list are the same as which of the second. -/
def sameTable : List Value → List Value → List (List Bool)
  | [], _ => []
  | x :: xs, ys => (ys.map fun y => same x y) :: sameTable xs ys
termination_by structural xs => xs
/-- The table that tells which entries of the first dictionary are the same as which of the
second. -/
def sameEntryTable : List (Value × Value) → List (Value × Value) → List (List Bool)
  | [], _ => []
  | e :: es, fs => (fs.map fun f => sameEntry e f) :: sameEntryTable es fs
termination_by structural es => es
/-- Two entries have the same key and the same value. -/
def sameEntry : Value × Value → Value × Value → Bool
  | (k, v), f => same k f.1 && same v f.2
termination_by structural e => e
end

theorem foldr_zipWith_or {α β : Type} (r : α → β → Bool) (xs : List α) (ys : List β) :
    (xs.map fun x => ys.map (r x)).foldr (List.zipWith or) (List.replicate ys.length false) =
      ys.map fun y => xs.any (r · y) := by
  induction xs with
  | nil => simp [List.map_const']
  | cons x xs ih =>
    rw [List.map_cons, List.foldr_cons, ih, List.zipWith_map, List.zipWith_self]
    simp

/-- A table of all pairs is covered both ways if and only if each of either list is related to one
of the other. -/
theorem coversBoth_map {α β : Type} (r : α → β → Bool) (xs : List α) (ys : List β) :
    coversBoth ys.length (xs.map fun x => ys.map (r x)) = true ↔
      (∀ x ∈ xs, ∃ y ∈ ys, r x y = true) ∧ ∀ y ∈ ys, ∃ x ∈ xs, r x y = true := by
  rw [coversBoth, foldr_zipWith_or]
  simp

theorem sameTable_eq_map (xs ys : List Value) :
    sameTable xs ys = xs.map fun x => ys.map (same x) := by
  induction xs with
  | nil => rfl
  | cons x xs ih => simp [sameTable, ih]

theorem sameEntryTable_eq_map (es fs : List (Value × Value)) :
    sameEntryTable es fs = es.map fun e => fs.map (sameEntry e) := by
  induction es with
  | nil => rfl
  | cons e es ih => simp [sameEntryTable, ih]

/-- Two values compare equal. -/
def equal (a b : Value) : Bool := !a.isNaN && same a b

/-- The list holds a value that compares equal to the given one. -/
def among (v : Value) (vs : List Value) : Bool := vs.any fun w => equal w v

/-- An entry is written over the one with an equal key, or put at the end. -/
def putEntry (entries : List (Value × Value)) (k v : Value) : List (Value × Value) :=
  match entries with
  | [] => [(k, v)]
  | (k', v') :: rest => if equal k' k then (k', v) :: rest else (k', v') :: putEntry rest k v

/-- The dictionary of entries given in order: a repeated key keeps its first place and takes the
last value. -/
def dictOf (entries : List (Value × Value)) : Value :=
  .dict (entries.foldl (fun acc e => putEntry acc e.1 e.2) [])

example : equal (.bool true) (.float ⟨0x3FF0000000000000⟩) = true := by decide +kernel
example : equal (.int 9007199254740993) (.float ⟨0x4340000000000000⟩) = false := by decide +kernel
example : equal (.list []) (.tuple []) = false := by decide
example : equal (.dict [(.int 1, .str "a"), (.none, .int 0)])
    (.dict [(.none, .bool false), (.bool true, .str "a")]) = true := by decide

end Scaffold.Value
