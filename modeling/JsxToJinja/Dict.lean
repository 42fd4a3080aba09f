/-! Maps from names, kept as lists sorted by name. -/
namespace JsxToJinja

/-- Entries sorted by name, each name once. -/
abbrev Dict (α : Type) := List (String × α)

namespace Dict

/-- A later value replaces an earlier one under the same name. -/
def insert (key : String) (value : α) : Dict α → Dict α
  | [] => [(key, value)]
  | (k, v) :: rest =>
    if key < k then (key, value) :: (k, v) :: rest
    else if key == k then (key, value) :: rest
    else (k, v) :: insert key value rest

def get? (dict : Dict α) (key : String) : Option α :=
  (dict.find? (·.1 == key)).map (·.2)

def has (dict : Dict α) (key : String) : Bool := (get? dict key).isSome

/-- Entries in any order; of repeated names the last one stays. -/
def ofList (entries : List (String × α)) : Dict α :=
  entries.foldl (fun acc (k, v) => insert k v acc) []

/-- Entries of `other` win. -/
def union (dict other : Dict α) : Dict α :=
  other.foldl (fun acc (k, v) => insert k v acc) dict

def keys (dict : Dict α) : List String := dict.map (·.1)

theorem get?_cons (k : String) (v : α) (rest : Dict α) (key : String) :
    get? ((k, v) :: rest) key = if k = key then some v else get? rest key := by
  by_cases h : k = key <;> simp [get?, h]

@[simp] theorem get?_insert_self (key : String) (value : α) (dict : Dict α) :
    get? (insert key value dict) key = some value := by
  induction dict with
  | nil => simp [insert, get?]
  | cons e rest ih =>
    rw [insert]
    split
    · simp [get?_cons]
    · split
      · simp [get?_cons]
      · rename_i hne
        have hk : e.1 ≠ key := fun h => hne (by simp [h])
        rw [get?_cons, if_neg hk, ih]

/-- A value under one name does not change what another name finds. -/
theorem get?_insert_of_ne {key other : String} (value : α) (dict : Dict α) (h : other ≠ key) :
    get? (insert key value dict) other = get? dict other := by
  induction dict with
  | nil => simp [insert, get?, Ne.symm h]
  | cons e rest ih =>
    rw [insert]
    split
    · rw [get?_cons, if_neg (Ne.symm h)]
    · split
      · rename_i heq
        rw [get?_cons, get?_cons, if_neg (Ne.symm h), if_neg fun he => h (by rw [← he, beq_iff_eq.1 heq])]
      · rw [get?_cons, get?_cons, ih]

end Dict

end JsxToJinja
