/-! # Dictionaries in order of insertion

A dictionary keeps its entries in the order in which their keys first came in. Putting a value under
a key that is there already leaves the key where it stands.
-/

namespace Chalkboard

structure Dict (α : Type) where
  entries : List (String × α)

namespace Dict

variable {α : Type}

def empty : Dict α := ⟨[]⟩

def keys (d : Dict α) : List String := d.entries.map Prod.fst

def get? (d : Dict α) (key : String) : Option α := d.entries.lookup key

def contains (d : Dict α) (key : String) : Bool := (d.get? key).isSome

def insertEntry (key : String) (a : α) : List (String × α) → List (String × α)
  | [] => [(key, a)]
  | entry :: rest =>
    if entry.1 = key then (key, a) :: rest else entry :: insertEntry key a rest

/-- Put a value under a key, in its old place or else at the end. -/
def insert (d : Dict α) (key : String) (a : α) : Dict α := ⟨insertEntry key a d.entries⟩

def modifyEntry (key : String) (f : α → α) : List (String × α) → List (String × α)
  | [] => []
  | entry :: rest =>
    if entry.1 = key then (key, f entry.2) :: rest else entry :: modifyEntry key f rest

def modify (d : Dict α) (key : String) (f : α → α) : Dict α := ⟨modifyEntry key f d.entries⟩

/-- Put in all entries one after the other, so that the last one of a key counts. -/
def ofList (entries : List (String × α)) : Dict α :=
  entries.foldl (fun d entry => d.insert entry.1 entry.2) empty

theorem lookup_cons (key k : String) (a : α) (rest : List (String × α)) :
    ((k, a) :: rest).lookup key = if key = k then some a else rest.lookup key := by
  by_cases h : key = k
  · rw [if_pos h, h, List.lookup_cons_self]
  · have hb : (key == k) = false := beq_eq_false_iff_ne.mpr h
    rw [if_neg h, List.lookup_cons, hb]

theorem lookup_insertEntry (key key' : String) (a : α) (entries : List (String × α)) :
    (insertEntry key a entries).lookup key' =
      if key' = key then some a else entries.lookup key' := by
  induction entries with
  | nil => simp [insertEntry, lookup_cons]
  | cons entry rest ih =>
    obtain ⟨k, b⟩ := entry
    by_cases hk : k = key
    · subst hk
      by_cases h : key' = k <;> simp [insertEntry, lookup_cons, h]
    · by_cases h : key' = k
      · simp [insertEntry, h, hk]
      · simp [insertEntry, lookup_cons, h, hk, ih]

@[simp] theorem get?_insert (d : Dict α) (key key' : String) (a : α) :
    (d.insert key a).get? key' = if key' = key then some a else d.get? key' :=
  lookup_insertEntry key key' a d.entries

theorem lookup_modifyEntry (key key' : String) (f : α → α) (entries : List (String × α)) :
    (modifyEntry key f entries).lookup key' =
      if key' = key then (entries.lookup key').map f else entries.lookup key' := by
  induction entries with
  | nil => simp [modifyEntry]
  | cons entry rest ih =>
    obtain ⟨k, b⟩ := entry
    by_cases hk : k = key
    · subst hk
      by_cases h : key' = k <;> simp [modifyEntry, lookup_cons, h]
    · by_cases h : key' = k
      · simp [modifyEntry, h, hk]
      · simp [modifyEntry, lookup_cons, h, hk, ih]

@[simp] theorem get?_modify (d : Dict α) (key key' : String) (f : α → α) :
    (d.modify key f).get? key' = if key' = key then (d.get? key').map f else d.get? key' :=
  lookup_modifyEntry key key' f d.entries

@[simp] theorem keys_modify (d : Dict α) (key : String) (f : α → α) :
    (d.modify key f).keys = d.keys := by
  show (modifyEntry key f d.entries).map Prod.fst = d.entries.map Prod.fst
  induction d.entries with
  | nil => rfl
  | cons entry rest ih => by_cases h : entry.1 = key <;> simp [modifyEntry, h, ih]

/-- A new key comes last, and an old one stays where it is. -/
theorem keys_insert (d : Dict α) (key : String) (a : α) :
    (d.insert key a).keys = if key ∈ d.keys then d.keys else d.keys ++ [key] := by
  show (insertEntry key a d.entries).map Prod.fst =
    if key ∈ d.entries.map Prod.fst then d.entries.map Prod.fst else d.entries.map Prod.fst ++ [key]
  induction d.entries with
  | nil => rfl
  | cons entry rest ih =>
    by_cases h : entry.1 = key
    · simp [insertEntry, h]
    · simp only [insertEntry, h, if_false, List.map_cons, ih, List.mem_cons, Ne.symm h, false_or]
      split <;> simp

end Dict

end Chalkboard
