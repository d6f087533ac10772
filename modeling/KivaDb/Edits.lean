import KivaDb.FromJson

namespace KivaDb

/-- A map in the order of its insertions. -/
abbrev Members (α : Type) := List (String × α)

namespace Members

variable {α β : Type}

/-- Sets the value of a key in its place, or at the end for a new key. -/
def insert (k : String) (v : α) : Members α → Members α
  | [] => [(k, v)]
  | (k', v') :: m => if k = k' then (k, v) :: m else (k', v') :: insert k v m

/-- Takes a key out, and keeps the order of the others. -/
def shiftRemove (k : String) : Members α → Members α
  | [] => []
  | (k', v') :: m => if k = k' then m else (k', v') :: shiftRemove k m

def mapValues (f : α → β) (m : Members α) : Members β := m.map fun p => (p.1, f p.2)

theorem lookup_mapValues (f : α → β) (m : Members α) (k : String) : (m.mapValues f).lookup k = (m.lookup k).map f := by
  induction m with
  | nil => rfl
  | cons p m ih =>
      obtain ⟨k', v⟩ := p
      show List.lookup k ((k', f v) :: mapValues f m) = _
      rw [List.lookup_cons, List.lookup_cons]
      cases k == k' with
      | true => rfl
      | false => exact ih

theorem lookup_cons (k n : String) (v : α) (m : Members α) :
    List.lookup n ((k, v) :: m) = if n = k then some v else m.lookup n := by
  rw [List.lookup_cons]
  by_cases h : n = k
  · rw [if_pos h, beq_iff_eq.mpr h]
  · rw [if_neg h, beq_eq_false_iff_ne.mpr h]

theorem lookup_insert (k n : String) (v : α) (m : Members α) :
    (insert k v m).lookup n = if n = k then some v else m.lookup n := by
  induction m with
  | nil => exact lookup_cons k n v []
  | cons p m ih =>
      obtain ⟨k', v'⟩ := p
      rw [insert]
      by_cases hk : k = k'
      · rw [if_pos hk, lookup_cons, lookup_cons, ← hk]
        split <;> rfl
      · rw [if_neg hk, lookup_cons, lookup_cons, ih]
        by_cases h : n = k'
        · have hn : n ≠ k := fun e => hk (e.symm.trans h)
          rw [if_pos h, if_pos h, if_neg hn]
        · rw [if_neg h, if_neg h]

theorem insert_mapValues (f : α → β) (m : Members α) (k : String) (v : α) :
    insert k (f v) (m.mapValues f) = (insert k v m).mapValues f := by
  induction m with
  | nil => rfl
  | cons p m ih =>
      obtain ⟨k', v'⟩ := p
      show insert k (f v) ((k', f v') :: mapValues f m) = _
      rw [insert, insert]
      split
      · rfl
      · rw [ih]
        rfl

theorem shiftRemove_mapValues (f : α → β) (m : Members α) (k : String) :
    shiftRemove k (m.mapValues f) = (shiftRemove k m).mapValues f := by
  induction m with
  | nil => rfl
  | cons p m ih =>
      obtain ⟨k', v'⟩ := p
      show shiftRemove k ((k', f v') :: mapValues f m) = _
      rw [shiftRemove, shiftRemove]
      split
      · rfl
      · rw [ih]
        rfl

end Members

/-- A change at a path. -/
inductive Edit (V N : Type)
  | set (value : V)
  | delete
  | append (values : List V)
  | insert (value : V)
  | incr (n : N)

/-- What a change returns. -/
inductive Outcome (V : Type)
  | done
  | removed (b : Bool)
  | length (n : Nat)
  | number (v : V)

def Edit.map {V V' N N' : Type} (f : V → V') (g : N → N') : Edit V N → Edit V' N'
  | set value => set (f value)
  | delete => delete
  | append values => append (values.map f)
  | insert value => insert (f value)
  | incr n => incr (g n)

def Outcome.map {V V' : Type} (f : V → V') : Outcome V → Outcome V'
  | done => done
  | removed b => removed b
  | length n => length n
  | number v => number (f v)

def noIndex : String := "cannot index an object with [n]"

def scalarOnPath : String := "path traverses a scalar value"

def notArray : String := "the value at this path is not an array"

namespace JsonPath

/-- The position `seg` designates; with `append`, the one just after the last too. -/
def positionFor (seg : Seg) (len : Nat) (append : Bool) : Option Nat :=
  let n : Option Int := match seg with
    | .idx i => some i
    | .key k => parseI64 k.toList
  n.bind fun n =>
    let at_ := if n < 0 then len + n else n
    let max : Int := if append ∧ 0 ≤ n then len else len - 1
    if 0 ≤ at_ ∧ at_ ≤ max then some at_.toNat else none

def outOfRange (seg : Seg) (len : Nat) : String :=
  match seg with
  | .idx i => s!"array index {i} is out of range (length {len})"
  | .key k => s!"array elements are addressed by index, not by '{k}'"

variable {α : Type}

/-- Changes the parent of the last segment, creating missing objects on the way. What was
created stays where the change then fails. -/
def parentMut (f : Json → Json × Except String α) : Json → List Seg → Json × Except String α
  | j, [] => f j
  | .object m, .key k :: parents =>
      let (child, r) := parentMut f ((m.lookup k).getD (.object [])) parents
      (.object (Members.insert k child m), r)
  | .object m, .idx _ :: _ => (.object m, .error noIndex)
  | .array a, seg :: parents =>
      match (positionFor seg a.length false).bind fun i => a[i]?.map fun j => (i, j) with
      | none => (.array a, .error (outOfRange seg a.length))
      | some (i, j) =>
          let (child, r) := parentMut f j parents
          (.array (a.set i child), r)
  | j, _ :: _ => (j, .error scalarOnPath)

/-- Changes the value at a path in place. Creates nothing. -/
def getMut (f : Json → Json × α) : Json → List Seg → Option (Json × α)
  | j, [] => some (f j)
  | .object m, .key k :: path =>
      (m.lookup k).bind fun j => (getMut f j path).map fun (j, r) => (.object (Members.insert k j m), r)
  | .array a, seg :: path =>
      ((positionFor seg a.length false).bind fun i => a[i]?.map fun j => (i, j)).bind fun (i, j) =>
        (getMut f j path).map fun (j, r) => (.array (a.set i j), r)
  | _, _ => none

def setLast (last : Seg) (value : Json) : Json → Json × Except String Unit
  | .object m =>
      match last with
      | .key k => (.object (Members.insert k value m), .ok ())
      | .idx _ => (.object m, .error noIndex)
  | .array a =>
      match positionFor last a.length true with
      | none => (.array a, .error (outOfRange last a.length))
      | some i => (.array (if i = a.length then a ++ [value] else a.set i value), .ok ())
  | j => (j, .error scalarOnPath)

/-- Sets the value at `path`, creating intermediate objects as needed. -/
def set (doc : Json) (path : List Seg) (value : Json) : Json × Except String Unit :=
  match path.getLast? with
  | none => (value, .ok ())
  | some last => parentMut (setLast last value) doc path.dropLast

def deleteLast (last : Seg) : Json → Json × Bool
  | .object m =>
      match last with
      | .key k => (.object (Members.shiftRemove k m), (m.lookup k).isSome)
      | .idx _ => (.object m, false)
  | .array a =>
      match positionFor last a.length false with
      | none => (.array a, false)
      | some i => (.array (a.eraseIdx i), true)
  | j => (j, false)

/-- Removes the value at `path`. Returns whether something was removed. -/
def delete (doc : Json) (path : List Seg) : Json × Bool :=
  match path.getLast? with
  | none => (doc, false)
  | some last => (getMut (deleteLast last) doc path.dropLast).getD (doc, false)

/-- The document with an array made where the field is missing. -/
def made (doc : Json) (path : List Seg) : Json × Except String Unit :=
  if (get doc path).isNone then set doc path (.array []) else (doc, .ok ())

def extend (values : List Json) : Json → Json × Except String Nat
  | .array a => (.array (a ++ values), .ok (a.length + values.length))
  | j => (j, .error notArray)

/-- Adds `values` at the end of the array at `path`, creating the array if the field is
missing. Returns the new length. -/
def append (doc : Json) (path : List Seg) (values : List Json) : Json × Except String Nat :=
  match made doc path with
  | (doc, .error e) => (doc, .error e)
  | (doc, .ok ()) => (getMut (extend values) doc path).getD (doc, .error notArray)

def insertLast (last : Seg) (value : Json) : Json → Json × Except String Nat
  | .array a =>
      match positionFor last a.length true with
      | none => (.array a, .error (outOfRange last a.length))
      | some i => (.array (a.insertIdx i value), .ok (a.length + 1))
  | j => (j, .error "insert works on arrays; the parent of this path is not an array")

/-- Inserts `value` before the element `path` designates. Returns the new length. -/
def insert (doc : Json) (path : List Seg) (value : Json) : Json × Except String Nat :=
  match path.getLast? with
  | none => (doc, .error "insert needs a path ending with an array position, such as .tags[0]")
  | some last =>
      (getMut (insertLast last value) doc path.dropLast).getD (doc, .error "the array at this path does not exist")

def cannot (e : String) : String := s!"the increment cannot be made: {e}"

def notNumber : String := "the value at this path is not a number"

/-- The number at `path` after adding `n`; a missing field counts as 0. -/
def next (doc : Json) (path : List Seg) (n : Number) : Except String Json :=
  match get doc path with
  | none => .ok (.number n)
  | some (.number cur) => ((Num.add cur n).map .number).mapError cannot
  | some _ => .error notNumber

def incr (doc : Json) (path : List Seg) (n : Number) : Json × Except String Json :=
  match next doc path n with
  | .error e => (doc, .error e)
  | .ok v =>
      let (doc, r) := set doc path v
      (doc, r.map fun _ => v)

def edit (doc : Json) (path : List Seg) : Edit Json Number → Json × Except String (Outcome Json)
  | .set value => (set doc path value).map id fun r => r.map fun _ => .done
  | .delete => (delete doc path).map id fun b => .ok (.removed b)
  | .append values => (append doc path values).map id fun r => r.map .length
  | .insert value => (insert doc path value).map id fun r => r.map .length
  | .incr n => (incr doc path n).map id fun r => r.map .number

end JsonPath

namespace DocPath

open JsonPath (positionFor outOfRange cannot notNumber)

variable [Chrono] {α : Type}

def parentMut (f : Doc → Doc × Except String α) : Doc → List Seg → Doc × Except String α
  | j, [] => f j
  | .object m, .key k :: parents =>
      let (child, r) := parentMut f ((m.lookup k).getD (.object [])) parents
      (.object (Members.insert k child m), r)
  | .object m, .idx _ :: _ => (.object m, .error noIndex)
  | .array a, seg :: parents =>
      match (positionFor seg a.length false).bind fun i => a[i]?.map fun j => (i, j) with
      | none => (.array a, .error (outOfRange seg a.length))
      | some (i, j) =>
          let (child, r) := parentMut f j parents
          (.array (a.set i child), r)
  | j, _ :: _ => (j, .error scalarOnPath)

def getMut (f : Doc → Doc × α) : Doc → List Seg → Option (Doc × α)
  | j, [] => some (f j)
  | .object m, .key k :: path =>
      (m.lookup k).bind fun j => (getMut f j path).map fun (j, r) => (.object (Members.insert k j m), r)
  | .array a, seg :: path =>
      ((positionFor seg a.length false).bind fun i => a[i]?.map fun j => (i, j)).bind fun (i, j) =>
        (getMut f j path).map fun (j, r) => (.array (a.set i j), r)
  | _, _ => none

def setLast (last : Seg) (value : Doc) : Doc → Doc × Except String Unit
  | .object m =>
      match last with
      | .key k => (.object (Members.insert k value m), .ok ())
      | .idx _ => (.object m, .error noIndex)
  | .array a =>
      match positionFor last a.length true with
      | none => (.array a, .error (outOfRange last a.length))
      | some i => (.array (if i = a.length then a ++ [value] else a.set i value), .ok ())
  | j => (j, .error scalarOnPath)

def set (doc : Doc) (path : List Seg) (value : Doc) : Doc × Except String Unit :=
  match path.getLast? with
  | none => (value, .ok ())
  | some last => parentMut (setLast last value) doc path.dropLast

def deleteLast (last : Seg) : Doc → Doc × Bool
  | .object m =>
      match last with
      | .key k => (.object (Members.shiftRemove k m), (m.lookup k).isSome)
      | .idx _ => (.object m, false)
  | .array a =>
      match positionFor last a.length false with
      | none => (.array a, false)
      | some i => (.array (a.eraseIdx i), true)
  | j => (j, false)

def delete (doc : Doc) (path : List Seg) : Doc × Bool :=
  match path.getLast? with
  | none => (doc, false)
  | some last => (getMut (deleteLast last) doc path.dropLast).getD (doc, false)

def made (doc : Doc) (path : List Seg) : Doc × Except String Unit :=
  if (get doc path).isNone then set doc path (.array []) else (doc, .ok ())

def extend (values : List Doc) : Doc → Doc × Except String Nat
  | .array a => (.array (a ++ values), .ok (a.length + values.length))
  | j => (j, .error notArray)

def append (doc : Doc) (path : List Seg) (values : List Doc) : Doc × Except String Nat :=
  match made doc path with
  | (doc, .error e) => (doc, .error e)
  | (doc, .ok ()) => (getMut (extend values) doc path).getD (doc, .error notArray)

def insertLast (last : Seg) (value : Doc) : Doc → Doc × Except String Nat
  | .array a =>
      match positionFor last a.length true with
      | none => (.array a, .error (outOfRange last a.length))
      | some i => (.array (a.insertIdx i value), .ok (a.length + 1))
  | j => (j, .error "insert works on arrays; the parent of this path is not an array")

def insert (doc : Doc) (path : List Seg) (value : Doc) : Doc × Except String Nat :=
  match path.getLast? with
  | none => (doc, .error "insert needs a path ending with an array position, such as .tags[0]")
  | some last =>
      (getMut (insertLast last value) doc path.dropLast).getD (doc, .error "the array at this path does not exist")

variable [Arithmetic]

/-- The number at `path` after adding `n`, by the rules of `Doc.add`. -/
def next (doc : Doc) (path : List Seg) (n : Doc) : Except String Doc :=
  match get doc path with
  | none => .ok n
  | some (.int i) => (Doc.add (.int i) n).mapError cannot
  | some (.float f) => (Doc.add (.float f) n).mapError cannot
  | some (.decimal d) => (Doc.add (.decimal d) n).mapError cannot
  | some _ => .error notNumber

def incr (doc : Doc) (path : List Seg) (n : Doc) : Doc × Except String Doc :=
  match next doc path n with
  | .error e => (doc, .error e)
  | .ok v =>
      let (doc, r) := set doc path v
      (doc, r.map fun _ => v)

def edit (doc : Doc) (path : List Seg) : Edit Doc Doc → Doc × Except String (Outcome Doc)
  | .set value => (set doc path value).map id fun r => r.map fun _ => .done
  | .delete => (delete doc path).map id fun b => .ok (.removed b)
  | .append values => (append doc path values).map id fun r => r.map .length
  | .insert value => (insert doc path value).map id fun r => r.map .length
  | .incr n => (incr doc path n).map id fun r => r.map .number

end DocPath

end KivaDb
