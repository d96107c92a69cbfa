/-!
# Keyed lists

Lists of pairs that hold each key at most once. New keys go to the end, and a key keeps its place
when its entry changes.
-/

namespace AnnotationIndex.Keyed

variable {κ ν : Type} [DecidableEq κ]

/-- The entry of a key. -/
def get? (key : κ) : List (κ × ν) → Option ν
  | [] => none
  | (k, v) :: rest => if k = key then some v else get? key rest

/-- Changes the entry of a key; a key that is absent is first added with `new`. -/
def upsert (key : κ) (new : ν) (f : ν → ν) : List (κ × ν) → List (κ × ν)
  | [] => [(key, f new)]
  | (k, v) :: rest => if k = key then (k, f v) :: rest else (k, v) :: upsert key new f rest

/-- Sets the entry of a key. -/
def put (key : κ) (value : ν) (entries : List (κ × ν)) : List (κ × ν) :=
  upsert key value (fun _ => value) entries

/-- Removes a key and its entry. -/
def erase (key : κ) : List (κ × ν) → List (κ × ν)
  | [] => []
  | (k, v) :: rest => if k = key then rest else (k, v) :: erase key rest

/-- The keys in order. -/
def keys (entries : List (κ × ν)) : List κ := entries.map (·.1)

end AnnotationIndex.Keyed
