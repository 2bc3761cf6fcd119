/-!
Maps kept as lists of keys and values, either in the order in which the keys were added or in
ascending order of the keys.
-/

namespace Bitcode.Keyed

variable {κ α : Type}

/-- Change the value under a key, after adding a fresh one at the end if there is none. -/
def update [DecidableEq κ] (key : κ) (fresh : α) (change : α → α) :
    List (κ × α) → List (κ × α)
  | [] => [(key, change fresh)]
  | (other, value) :: rest =>
      if other = key then (other, change value) :: rest
      else (other, value) :: update key fresh change rest

/-- Change the value under a key, after adding a fresh one in its place if there is none. -/
def updateSorted [DecidableEq κ] [LT κ] [DecidableLT κ] (key : κ) (fresh : α) (change : α → α) :
    List (κ × α) → List (κ × α)
  | [] => [(key, change fresh)]
  | (other, value) :: rest =>
      if other = key then (other, change value) :: rest
      else if key < other then (key, change fresh) :: (other, value) :: rest
      else (other, value) :: updateSorted key fresh change rest

end Bitcode.Keyed
