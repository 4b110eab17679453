import Mathlib.Algebra.GroupWithZero.Nat
import Mathlib.Data.Int.Notation
import Mathlib.Data.List.Basic

/-!
# Unmarshaling JSON over what is there

Go's `json.Unmarshal` writes a JSON value over a target that exists already: fields that are
absent are kept, `null` sets a pointer to `nil` and does nothing else, and a value of a wrong
type is an error that is reported in the end, after all the rest has been written. An error of a
type that unmarshals itself stops everything.

A target is described here by what it writes, in order, for each value; so that what is written
can be looked at without the memory it is written to.
-/

namespace JsonDiff

/-- A JSON value. Of a number, it is known whether it has a fraction or an exponent. -/
inductive Value where
  | null
  | bool (b : Bool)
  | number (negative : Bool) (magnitude : ℕ) (plain : Bool)
  | string (s : String)
  | array (values : List Value)
  | object (members : List (String × Value))

/-- What has been written, and whether there were errors. -/
structure Outcome (ω : Type) where
  writes : List ω
  failed : Bool
  /-- nothing has been written after the last error -/
  stopped : Bool

namespace Outcome

variable {ω : Type}

/-- Something is written. -/
def write (w : ω) : Outcome ω := ⟨[w], false, false⟩

/-- Nothing is written. -/
def skip : Outcome ω := ⟨[], false, false⟩

/-- A value of a wrong type. -/
def mismatch : Outcome ω := ⟨[], true, false⟩

/-- One outcome after the other. -/
def andThen (o o' : Outcome ω) : Outcome ω :=
  if o.stopped then o else ⟨o.writes ++ o'.writes, o.failed || o'.failed, o'.stopped⟩

/-- There was no error. -/
def Accepted (o : Outcome ω) : Prop := o.failed = false ∧ o.stopped = false

instance (o : Outcome ω) : Decidable o.Accepted := inferInstanceAs (Decidable (_ ∧ _))

theorem accepted_andThen {o o' : Outcome ω} :
    (o.andThen o').Accepted ↔ o.Accepted ∧ o'.Accepted := by
  obtain ⟨writes, failed, stopped⟩ := o
  obtain ⟨writes', failed', stopped'⟩ := o'
  cases stopped <;> cases failed <;> simp [andThen, Accepted]

/-- Writes follow each other. -/
theorem writes_andThen {o o' : Outcome ω} (h : o.Accepted) :
    (o.andThen o').writes = o.writes ++ o'.writes := by
  rw [andThen, if_neg (by rw [h.2]; exact Bool.false_ne_true)]

end Outcome

/-- A target of some type, by what is written to it. -/
abbrev Target (ω : Type) := Value → Outcome ω

namespace Target

variable {ω : Type}

/-- An unsigned number of some bits. -/
def uint (bits : ℕ) (set : ℕ → ω) : Target ω
  | .number false n true => if n < 2 ^ bits then .write (set n) else .mismatch
  | .null => .skip
  | _ => .mismatch

/-- A string. -/
def string (set : String → ω) : Target ω
  | .string s => .write (set s)
  | .null => .skip
  | _ => .mismatch

/-- A Boolean. -/
def bool (set : Bool → ω) : Target ω
  | .bool b => .write (set b)
  | .null => .skip
  | _ => .mismatch

/-- A pointer to a big number, which unmarshals itself and may write anything if it fails. -/
def bigInt (set : Option ℤ → ω) (spoil : ω) : Target ω
  | .number negative n true => .write (set (some (if negative then -(n : ℤ) else n)))
  | .null => .write (set none)
  | _ => ⟨[spoil], true, true⟩

/-- The field with a key: that of the very name, or the first whose name is the same but for
the case. -/
def lookup (equalFold : String → String → Bool) (fields : List (String × Target ω)) (key : String) :
    Option (String × Target ω) :=
  (fields.find? fun f => f.1 = key) <|> (fields.find? fun f => equalFold f.1 key)

/-- The members of an object, one after the other. Those of no field are ignored. -/
def members (equalFold : String → String → Bool) (fields : List (String × Target ω)) :
    List (String × Value) → Outcome ω
  | [] => .skip
  | (key, value) :: rest =>
    match lookup equalFold fields key with
    | none => members equalFold fields rest
    | some field => (field.2 value).andThen (members equalFold fields rest)

/-- A struct with some fields. -/
def struct (equalFold : String → String → Bool) (fields : List (String × Target ω)) : Target ω
  | .object values => members equalFold fields values
  | .null => .skip
  | _ => .mismatch

variable {equalFold : String → String → Bool} {fields : List (String × Target ω)} {ρ : Type}
  {see : ω → Option ρ}

theorem lookup_mem {key : String} {field : String × Target ω}
    (h : lookup equalFold fields key = some field) : field ∈ fields := by
  rw [lookup] at h
  cases hexact : fields.find? fun f => f.1 = key with
  | some field' =>
    rw [hexact] at h
    exact List.mem_of_find?_eq_some (hexact.trans h)
  | none =>
    rw [hexact] at h
    exact List.mem_of_find?_eq_some h

/-- Nothing is written that would be seen. -/
def Unseen (see : ω → Option ρ) (t : Target ω) : Prop := ∀ v, (t v).writes.filterMap see = []

/-- What is seen of the members of an object is what is seen of each. -/
theorem seen_members {values : List (String × Value)}
    (h : (members equalFold fields values).Accepted) :
    (members equalFold fields values).writes.filterMap see =
      values.flatMap fun m => ((lookup equalFold fields m.1).elim [] fun f =>
        (f.2 m.2).writes.filterMap see) := by
  induction values with
  | nil => rfl
  | cons m rest ih =>
    obtain ⟨key, value⟩ := m
    rw [members] at h ⊢
    rw [List.flatMap_cons]
    split at h
    · rename_i hfield
      rw [hfield]
      exact ih h
    · rename_i field hfield
      rw [hfield]
      obtain ⟨hvalue, hrest⟩ := Outcome.accepted_andThen.mp h
      rw [Outcome.writes_andThen hvalue, List.filterMap_append, ih hrest]
      rfl

/-- All members are accepted. -/
theorem accepted_member {values : List (String × Value)}
    (h : (members equalFold fields values).Accepted) {m : String × Value} (hm : m ∈ values)
    {field : String × Target ω} (hfield : lookup equalFold fields m.1 = some field) :
    (field.2 m.2).Accepted := by
  induction values with
  | nil => cases hm
  | cons m' rest ih =>
    obtain ⟨key, value⟩ := m'
    rw [members] at h
    cases hm with
    | head =>
      rw [hfield] at h
      exact (Outcome.accepted_andThen.mp h).1
    | tail _ hm =>
      split at h
      · exact ih h hm
      · exact ih (Outcome.accepted_andThen.mp h).2 hm

/-- The values of the members for one field. -/
def valuesOf (equalFold : String → String → Bool) (fields : List (String × Target ω))
    (name : String) :
    Value → List Value
  | .object values =>
    values.filterMap fun m =>
      if (lookup equalFold fields m.1).map Prod.fst = some name then some m.2 else none
  | _ => []

/-- If only one field of a struct is seen, then what is seen of the struct is what is seen of
the members for that field. -/
theorem seen_struct {name : String} {t : Target ω}
    (hfields : ∀ f ∈ fields, f = (name, t) ∨ f.1 ≠ name ∧ Unseen see f.2) {v : Value}
    (h : (struct equalFold fields v).Accepted) :
    (struct equalFold fields v).writes.filterMap see =
      (valuesOf equalFold fields name v).flatMap fun v => (t v).writes.filterMap see := by
  cases v with
  | object values =>
    rw [struct, seen_members h, valuesOf, List.filterMap_eq_flatMap_toList, List.flatMap_assoc]
    refine List.flatMap_congr fun m _ => ?_
    cases hfield : lookup equalFold fields m.1 with
    | none => simp
    | some f =>
      obtain rfl | ⟨hne, hunseen⟩ := hfields f (lookup_mem hfield)
      · simp
      · simp [hne, hunseen m.2]
  | _ => rfl

theorem accepted_of_mem_valuesOf {name : String} {t : Target ω}
    (hfields : ∀ f ∈ fields, f = (name, t) ∨ f.1 ≠ name ∧ Unseen see f.2) {v v' : Value}
    (h : (struct equalFold fields v).Accepted) (hv' : v' ∈ valuesOf equalFold fields name v) :
    (t v').Accepted := by
  cases v with
  | object values =>
    obtain ⟨m, hm, hname⟩ := List.mem_filterMap.mp hv'
    split at hname
    · rename_i hkey
      obtain ⟨field, hfield, hfst⟩ := Option.map_eq_some_iff.mp hkey
      obtain rfl | ⟨hne, -⟩ := hfields field (lookup_mem hfield)
      · cases hname
        exact accepted_member h hm hfield
      · exact absurd hfst hne
    · cases hname
  | _ => cases hv'

/-- A struct of unseen fields is not seen. -/
theorem unseen_struct (hfields : ∀ f ∈ fields, Unseen see f.2) :
    Unseen see (struct equalFold fields) := by
  intro v
  cases v with
  | object values =>
    rw [struct]
    induction values with
    | nil => rfl
    | cons m rest ih =>
      obtain ⟨key, value⟩ := m
      rw [members]
      split
      · exact ih
      · rename_i field hfield
        have hvalue := hfields field (lookup_mem hfield) value
        rw [Outcome.andThen]
        split
        · exact hvalue
        · rw [List.filterMap_append, hvalue, ih, List.nil_append]
  | _ => rfl

theorem unseen_uint {bits : ℕ} {set : ℕ → ω} (hset : ∀ n, see (set n) = none) :
    Unseen see (uint bits set) := by
  intro v
  unfold uint
  split
  · split
    · simp [Outcome.write, hset]
    · rfl
  · rfl
  · rfl

theorem unseen_string {set : String → ω} (hset : ∀ s, see (set s) = none) :
    Unseen see (string set) := by
  intro v
  unfold string
  split
  · simp [Outcome.write, hset]
  · rfl
  · rfl

theorem unseen_bool {set : Bool → ω} (hset : ∀ b, see (set b) = none) : Unseen see (bool set) := by
  intro v
  unfold bool
  split
  · simp [Outcome.write, hset]
  · rfl
  · rfl

end Target

end JsonDiff
