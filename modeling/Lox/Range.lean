/-!
Access with a check. A request that goes out of range is

* `index`: an item at a position there is none at,
* `slice`: a piece that starts after it stops, or stops after the end,
* `count`: fewer than no copies of something.

An access gives what is there, or the request it could not meet.
-/

namespace Lox

/-- A request that cannot be met. -/
inductive OutOfRange where
  | index (position size : Nat)
  | slice (start stop size : Nat)
  | count (copies : Int)
deriving DecidableEq

/-- the text of a request that cannot be met -/
def OutOfRange.message : OutOfRange → String
  | index position size => s!"index out of bounds: the len is {size} but the index is {position}"
  | slice start stop size =>
    if stop < start then s!"slice index starts at {start} but ends at {stop}"
    else s!"range end index {stop} out of range for slice of length {size}"
  | count _ => "capacity overflow"

namespace Range

variable {α : Type}

/-- the item at a position -/
def item (xs : Array α) (i : Nat) : Except OutOfRange α :=
  match xs[i]? with
  | some x => .ok x
  | none => .error (.index i xs.size)

/-- the items from one position up to another -/
def slice (xs : Array α) (start stop : Nat) : Except OutOfRange (List α) :=
  if start ≤ stop ∧ stop ≤ xs.size then .ok (xs.extract start stop).toList
  else .error (.slice start stop xs.size)

/-- the first items, as many as asked for, and the others -/
def splitAt (xs : List α) (n : Nat) : Except OutOfRange (List α × List α) :=
  if n ≤ xs.length then .ok (xs.take n, xs.drop n) else .error (.slice 0 n xs.length)

/-- copies of an item, as many as asked for -/
def copies (n : Int) (x : α) : Except OutOfRange (List α) :=
  if 0 ≤ n then .ok (List.replicate n.toNat x) else .error (.count n)

theorem item_of_getElem? {xs : Array α} {i : Nat} {x : α} (h : xs[i]? = some x) : item xs i = .ok x := by
  simp [item, h]

theorem slice_of_le {xs : Array α} {start stop : Nat} (h : start ≤ stop) (h' : stop ≤ xs.size) :
    slice xs start stop = .ok ((xs.toList.drop start).take (stop - start)) := by
  simp [slice, h, h', Array.toList_extract, List.extract_eq_take_drop]

theorem splitAt_of_le {xs : List α} {n : Nat} (h : n ≤ xs.length) : splitAt xs n = .ok (xs.take n, xs.drop n) :=
  if_pos h

theorem copies_of_nonneg {n : Int} (h : 0 ≤ n) (x : α) : copies n x = .ok (List.replicate n.toNat x) := if_pos h

end Range

end Lox
