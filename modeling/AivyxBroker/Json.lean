import Mathlib

/-!
# JSON values

The broker reads and edits parsed JSON. Numbers keep the three forms of the
parser the broker uses. An object is a map: its fields are listed here, but
their order carries no meaning, a lookup takes the first field of a name and
an update leaves one.
-/

namespace AivyxBroker

/-- A JSON number as parsed. -/
inductive Number where
  /-- A non-negative integer. -/
  | posInt (n : UInt64)
  /-- A negative integer. -/
  | negInt (n : Int64)
  /-- Any other number, by its binary64 bits. -/
  | float (bits : UInt64)
  deriving DecidableEq

/-- A JSON value. -/
inductive Json where
  /-- The null value. -/
  | null
  /-- A truth value. -/
  | bool (b : Bool)
  /-- A number. -/
  | number (n : Number)
  /-- A string. -/
  | string (s : String)
  /-- An array. -/
  | array (elems : List Json)
  /-- An object, by its fields. -/
  | object (fields : List (String×Json))

namespace Json

/-- The field of an object, nothing for other values. -/
def get (key : String) : Json → Option Json
  | object fields => fields.lookup key
  | _ => none

/-- The text of a string. -/
def asStr : Json → Option String
  | string s => some s
  | _ => none

/-- The elements of an array. -/
def asArray : Json → Option (List Json)
  | array elems => some elems
  | _ => none

/-- The truth value. -/
def asBool : Json → Option Bool
  | bool b => some b
  | _ => none

/-- A number that fits 64 unsigned bits. -/
def asU64 : Json → Option ℕ
  | number (.posInt n) => some n.toNat
  | _ => none

/-- Whether the value is an object. -/
def isObject : Json → Bool
  | object _ => true
  | _ => false

/-- Take a field out of an object. -/
def remove (key : String) : Json → Option Json×Json
  | object fields => (fields.lookup key,object (fields.filter fun field => field.1≠key))
  | value => (none,value)

/-- Set a field of an object; other values stay as they are. -/
def insert (value : Json) (key : String) (new : Json) : Json :=
  match value with
  | object fields => object ((key,new)::fields.filter fun field => field.1≠key)
  | value => value

/-- A field of the name looked up survives filtering another name out. -/
theorem lookup_filter_ne (fields : List (String×Json)) (key k : String) :
    (fields.filter fun field => field.1≠key).lookup k=
      if k=key then none else fields.lookup k := by
  induction fields with
  | nil => simp
  | cons field fields ih =>
    obtain ⟨name,value⟩ := field
    by_cases hn : name=key
    · subst hn
      rw [List.filter_cons_of_neg (by simp),ih]
      by_cases hk : k=name
      · simp [hk]
      · simp [hk,List.lookup_cons,beq_eq_false_iff_ne.mpr hk]
    · rw [List.filter_cons_of_pos (by simpa using hn),List.lookup_cons,List.lookup_cons,ih]
      by_cases hk : k=name
      · simp [hk,hn]
      · simp [beq_eq_false_iff_ne.mpr hk]

/-- Removing a field returns it, and leaves the others as they were. -/
theorem get_remove (key k : String) (value : Json) :
    (value.remove key).1=value.get key ∧
      (value.remove key).2.get k=if k=key then none else value.get k := by
  cases value with
  | object fields => exact ⟨rfl,lookup_filter_ne fields key k⟩
  | null => simp [remove,get]
  | bool => simp [remove,get]
  | number => simp [remove,get]
  | string => simp [remove,get]
  | array => simp [remove,get]

/-- Setting a field of an object changes that field only. -/
theorem get_insert {value : Json} (h : value.isObject=true) (key k : String) (new : Json) :
    (value.insert key new).get k=if k=key then some new else value.get k := by
  cases value with
  | object fields =>
    simp only [insert,get,List.lookup_cons]
    by_cases hk : k=key
    · simp [hk]
    · rw [lookup_filter_ne]
      simp [hk,beq_eq_false_iff_ne.mpr hk]
  | null => cases h
  | bool => cases h
  | number => cases h
  | string => cases h
  | array => cases h

/-- Setting or removing a field does not change what kind of value it is. -/
@[simp] theorem isObject_insert (value : Json) (key : String) (new : Json) :
    (value.insert key new).isObject=value.isObject := by
  cases value <;> rfl

@[simp] theorem isObject_remove (key : String) (value : Json) :
    (value.remove key).2.isObject=value.isObject := by
  cases value <;> rfl

@[simp] theorem isObject_object (fields : List (String×Json)) : (object fields).isObject=true := rfl

end Json

end AivyxBroker
