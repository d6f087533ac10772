import KivaDb.Edits

namespace KivaDb

open JsonPath (parseI64 positionFor outOfRange)

/-- What a path finds at a node. -/
inductive Shape (T : Type)
  | leaf
  | array (items : List T)
  | object (members : Members T)

/-- Documents, of JSON or of typed values, as trees. -/
class DocTree (T : Type) where
  shape : T → Shape T
  array : List T → T
  object : Members T → T
  shape_array : ∀ a, shape (array a) = .array a
  shape_object : ∀ m, shape (object m) = .object m
  eq_array : ∀ t a, shape t = .array a → t = array a
  eq_object : ∀ t m, shape t = .object m → t = object m

namespace DocTree

variable {T α : Type} [DocTree T]

def get : T → List Seg → Option T
  | t, [] => some t
  | t, seg :: path =>
      match shape t with
      | .object m =>
          match seg with
          | .key k => (m.lookup k).bind fun c => get c path
          | .idx _ => none
      | .array a => (positionFor seg a.length false).bind fun i => a[i]?.bind fun c => get c path
      | .leaf => none

/-- The element that a segment designates, and where it is. -/
def element (a : List T) (seg : Seg) : Option (Nat × T) :=
  (positionFor seg a.length false).bind fun i => a[i]?.map fun c => (i, c)

def parentMut (f : T → T × Except String α) : T → List Seg → T × Except String α
  | t, [] => f t
  | t, seg :: parents =>
      match shape t with
      | .object m =>
          match seg with
          | .key k =>
              let r := parentMut f ((m.lookup k).getD (object [])) parents
              (object (Members.insert k r.1 m), r.2)
          | .idx _ => (t, .error noIndex)
      | .array a =>
          match element a seg with
          | none => (t, .error (outOfRange seg a.length))
          | some (i, c) =>
              let r := parentMut f c parents
              (array (a.set i r.1), r.2)
      | .leaf => (t, .error scalarOnPath)

def getMut (f : T → T × α) : T → List Seg → Option (T × α)
  | t, [] => some (f t)
  | t, seg :: path =>
      match shape t with
      | .object m =>
          match seg with
          | .key k => (m.lookup k).bind fun c => (getMut f c path).map fun r => (object (Members.insert k r.1 m), r.2)
          | .idx _ => none
      | .array a => (element a seg).bind fun (i, c) => (getMut f c path).map fun r => (array (a.set i r.1), r.2)
      | .leaf => none

def setLast (last : Seg) (value : T) (t : T) : T × Except String Unit :=
  match shape t with
  | .object m =>
      match last with
      | .key k => (object (Members.insert k value m), .ok ())
      | .idx _ => (t, .error noIndex)
  | .array a =>
      match positionFor last a.length true with
      | none => (t, .error (outOfRange last a.length))
      | some i => (array (if i = a.length then a ++ [value] else a.set i value), .ok ())
  | .leaf => (t, .error scalarOnPath)

def set (t : T) (path : List Seg) (value : T) : T × Except String Unit :=
  match path.getLast? with
  | none => (value, .ok ())
  | some last => parentMut (setLast last value) t path.dropLast

def deleteLast (last : Seg) (t : T) : T × Bool :=
  match shape t with
  | .object m =>
      match last with
      | .key k => (object (Members.shiftRemove k m), (m.lookup k).isSome)
      | .idx _ => (t, false)
  | .array a =>
      match positionFor last a.length false with
      | none => (t, false)
      | some i => (array (a.eraseIdx i), true)
  | .leaf => (t, false)

def delete (t : T) (path : List Seg) : T × Bool :=
  match path.getLast? with
  | none => (t, false)
  | some last => (getMut (deleteLast last) t path.dropLast).getD (t, false)

def noArray : String := "the array at this path does not exist"

/-- The tree with an array made where the node is missing. -/
def made (t : T) (path : List Seg) : T × Except String Unit :=
  if (get t path).isNone then set t path (array []) else (t, .ok ())

def extend (values : List T) (t : T) : T × Except String Nat :=
  match shape t with
  | .array a => (array (a ++ values), .ok (a.length + values.length))
  | _ => (t, .error notArray)

def append (t : T) (path : List Seg) (values : List T) : T × Except String Nat :=
  match made t path with
  | (t, .error e) => (t, .error e)
  | (t, .ok ()) => (getMut (extend values) t path).getD (t, .error notArray)

def insertLast (last : Seg) (value : T) (t : T) : T × Except String Nat :=
  match shape t with
  | .array a =>
      match positionFor last a.length true with
      | none => (t, .error (outOfRange last a.length))
      | some i => (array (a.insertIdx i value), .ok (a.length + 1))
  | _ => (t, .error "insert works on arrays; the parent of this path is not an array")

def insert (t : T) (path : List Seg) (value : T) : T × Except String Nat :=
  match path.getLast? with
  | none => (t, .error "insert needs a path ending with an array position, such as .tags[0]")
  | some last => (getMut (insertLast last value) t path.dropLast).getD (t, .error noArray)

def number : Seg → Option Int
  | .idx i => some i
  | .key k => parseI64 k.toList

/-- A position counted from the end of `len` elements. -/
def countsBack (seg : Seg) (len : Nat) : Bool :=
  (number seg).any fun n => n < 0 ∧ 0 ≤ (len : Int) + n

/-- The path with the array positions it designates; the one just after the last element is one too. -/
def resolve : T → List Seg → List Seg
  | _, [] => []
  | t, seg :: path =>
      match shape t with
      | .object m =>
          match seg with
          | .key k => .key k :: match m.lookup k with
              | some c => resolve c path
              | none => path
          | .idx i => .idx i :: path
      | .array a =>
          match positionFor seg a.length true with
          | some i => .idx i :: match a[i]? with
              | some c => resolve c path
              | none => path
          | none => seg :: path
      | .leaf => seg :: path

/-- Neither path is the beginning of the other one. -/
def Apart (p q : List Seg) : Prop := ¬ p <+: q ∧ ¬ q <+: p

instance (p q : List Seg) : Decidable (Apart p q) := inferInstanceAs (Decidable (_ ∧ _))

def Diverge (t : T) (p q : List Seg) : Prop := Apart (resolve t p) (resolve t q)

instance (t : T) (p q : List Seg) : Decidable (Diverge t p q) := inferInstanceAs (Decidable (Apart _ _))

/-- `q` counts from the end of an array that a value set at `p` is added to. -/
def countsFromNewEnd : T → List Seg → List Seg → Bool
  | t, seg :: p, seg' :: q =>
      match shape t with
      | .object m =>
          match seg, seg' with
          | .key k, .key l => k = l && (m.lookup k).any fun c => countsFromNewEnd c p q
          | _, _ => false
      | .array a =>
          if p = [] then positionFor seg a.length true = some a.length && countsBack seg' (a.length + 1)
          else
            match element a seg, positionFor seg' a.length false with
            | some (i, c), some j => i = j && countsFromNewEnd c p q
            | _, _ => false
      | .leaf => false
  | _, _, _ => false

section Positions

theorem positionFor_eq (seg : Seg) (len : Nat) (append : Bool) : positionFor seg len append =
    (number seg).bind fun n =>
      let at_ := if n < 0 then len + n else n
      let max : Int := if append ∧ 0 ≤ n then len else len - 1
      if 0 ≤ at_ ∧ at_ ≤ max then some at_.toNat else none := by
  cases seg <;> rfl

theorem positionFor_eq_some {seg : Seg} {len i : Nat} {append : Bool} : positionFor seg len append = some i ↔
    ∃ n, number seg = some n ∧ (i : Int) = (if n < 0 then len + n else n) ∧
      (i : Int) ≤ if append ∧ 0 ≤ n then (len : Int) else len - 1 := by
  rw [positionFor_eq, Option.bind_eq_some_iff]
  refine exists_congr fun n => and_congr_right fun _ => ?_
  dsimp only
  generalize (if n < 0 then (len : Int) + n else n) = at_
  generalize (if append ∧ 0 ≤ n then (len : Int) else len - 1) = max
  constructor
  · intro h
    split at h
    · next hin =>
      have hi := Option.some.inj h
      omega
    · exact nomatch h
  · rintro ⟨hi, hmax⟩
    rw [if_pos (by omega), ← hi]
    rfl

variable {seg : Seg} {len i : Nat}

theorem positionFor_true (h : positionFor seg len false = some i) : positionFor seg len true = some i := by
  obtain ⟨n, hn, hi, hmax⟩ := positionFor_eq_some.mp h
  refine positionFor_eq_some.mpr ⟨n, hn, hi, ?_⟩
  simp at hmax
  split <;> omega

theorem positionFor_lt (h : positionFor seg len false = some i) : i < len := by
  obtain ⟨n, -, -, hmax⟩ := positionFor_eq_some.mp h
  simp at hmax
  omega

theorem positionFor_le (h : positionFor seg len true = some i) : i ≤ len := by
  obtain ⟨n, -, -, hmax⟩ := positionFor_eq_some.mp h
  split at hmax <;> omega

theorem positionFor_false (h : positionFor seg len true = some i) (hlt : i < len) : positionFor seg len false = some i := by
  obtain ⟨n, hn, hi, -⟩ := positionFor_eq_some.mp h
  refine positionFor_eq_some.mpr ⟨n, hn, hi, ?_⟩
  simp
  omega

/-- The position after the last is that of an element once one is added. -/
theorem positionFor_added (h : positionFor seg len true = some len) : positionFor seg (len + 1) false = some len := by
  obtain ⟨n, hn, hi, hmax⟩ := positionFor_eq_some.mp h
  have hnonneg : ¬ n < 0 := by
    intro hlt
    rw [if_neg (by omega)] at hmax
    omega
  rw [if_neg hnonneg] at hi
  refine positionFor_eq_some.mpr ⟨n, hn, by rwa [if_neg hnonneg], ?_⟩
  simp

/-- A position counted from the start is the same in a longer array, but for the one just added. -/
theorem positionFor_longer (hback : countsBack seg (len + 1) = false) (hne : positionFor seg len true ≠ some len) :
    positionFor seg (len + 1) false = positionFor seg len false := by
  rw [countsBack] at hback
  ext j
  rw [positionFor_eq_some, positionFor_eq_some]
  refine exists_congr fun n => and_congr_right fun hn => ?_
  rw [hn, Option.any_some, decide_eq_false_iff_not] at hback
  by_cases hneg : n < 0
  · rw [if_pos hneg, if_pos hneg]
    omega
  · rw [if_neg hneg, if_neg hneg]
    refine and_congr_right fun hj => ?_
    have hlen : j ≠ len := by
      rintro rfl
      exact hne (positionFor_eq_some.mpr ⟨n, hn, by rwa [if_neg hneg], by simp; omega⟩)
    simp
    omega

end Positions

section Nodes

theorem apart_cons {x y : Seg} {p q : List Seg} : Apart (x :: p) (y :: q) ↔ x ≠ y ∨ Apart p q := by
  rw [Apart, Apart, List.cons_prefix_cons, List.cons_prefix_cons]
  by_cases h : x = y
  · simp [h]
  · simp [h, Ne.symm h]

theorem not_apart_nil (p : List Seg) : ¬ Apart p [] := fun h => h.2 List.nil_prefix

variable {t : T} {m : Members T} {a : List T} {q : List Seg}

theorem get_key (h : shape t = .object m) (k : String) (q : List Seg) :
    get t (.key k :: q) = (m.lookup k).bind fun c => get c q := by
  rw [get, h]

theorem get_idx (h : shape t = .object m) (i : Int) (q : List Seg) : get t (.idx i :: q) = none := by
  rw [get, h]

theorem get_element (h : shape t = .array a) (seg : Seg) (q : List Seg) :
    get t (seg :: q) = (positionFor seg a.length false).bind fun i => a[i]?.bind fun c => get c q := by
  rw [get, h]

theorem get_leaf (h : shape t = .leaf) (seg : Seg) (q : List Seg) : get t (seg :: q) = none := by
  rw [get, h]

omit [DocTree T] in
theorem element_eq_some {seg : Seg} {i : Nat} {c : T} :
    element a seg = some (i, c) ↔ positionFor seg a.length false = some i ∧ a[i]? = some c := by
  rw [element, Option.bind_eq_some_iff]
  constructor
  · rintro ⟨j, hj, hc⟩
    obtain ⟨c', hc', heq⟩ := Option.map_eq_some_iff.mp hc
    obtain ⟨rfl, rfl⟩ := Prod.mk.inj heq
    exact ⟨hj, hc'⟩
  · rintro ⟨hi, hc⟩
    exact ⟨i, hi, by rw [hc]; rfl⟩

theorem get_of_element {seg : Seg} {i : Nat} {c : T} (h : shape t = .array a) (he : element a seg = some (i, c)) (q : List Seg) :
    get t (seg :: q) = get c q := by
  obtain ⟨hi, hc⟩ := element_eq_some.mp he
  rw [get_element h, hi, Option.bind_some, hc, Option.bind_some]

/-- An element that is changed in its place. -/
theorem get_array_set {seg : Seg} {i : Nat} {c c' : T} (he : element a seg = some (i, c)) (q : List Seg) :
    get (array (a.set i c')) (seg :: q) = get c' q := by
  obtain ⟨hi, -⟩ := element_eq_some.mp he
  have he' : element (a.set i c') seg = some (i, c') := by
    refine element_eq_some.mpr ⟨?_, List.getElem?_set_self (positionFor_lt hi)⟩
    rwa [List.length_set]
  exact get_of_element (shape_array _) he' q

theorem get_object_insert (k : String) (c : T) (q : List Seg) : get (object (Members.insert k c m)) (.key k :: q) = get c q := by
  rw [get_key (shape_object _), Members.lookup_insert, if_pos rfl, Option.bind_some]

theorem resolve_key (h : shape t = .object m) (k : String) (q : List Seg) :
    resolve t (.key k :: q) = .key k :: (match m.lookup k with | some c => resolve c q | none => q) := by
  rw [resolve, h]

theorem resolve_idx (h : shape t = .object m) (i : Int) (q : List Seg) : resolve t (.idx i :: q) = .idx i :: q := by
  rw [resolve, h]

theorem resolve_array (h : shape t = .array a) {seg : Seg} {i : Nat} (hi : positionFor seg a.length true = some i) (q : List Seg) :
    resolve t (seg :: q) = .idx i :: (match a[i]? with | some c => resolve c q | none => q) := by
  rw [resolve, h]
  dsimp only
  rw [hi]

/-- Nothing is resolved in an object without members. -/
theorem resolve_empty (q : List Seg) : resolve (object [] : T) q = q := by
  cases q with
  | nil => rfl
  | cons seg q =>
      cases seg with
      | key k => rw [resolve_key (shape_object _)]; rfl
      | idx i => exact resolve_idx (shape_object _) i q

theorem get_empty (seg : Seg) (q : List Seg) : get (object [] : T) (seg :: q) = none := by
  cases seg with
  | key k => exact get_key (shape_object _) k q
  | idx i => exact get_idx (shape_object _) i q

theorem countsFromNewEnd_nil (t : T) (q : List Seg) : countsFromNewEnd t [] q = false := by
  cases q <;> rfl

theorem countsFromNewEnd_empty (p q : List Seg) : countsFromNewEnd (object [] : T) p q = false := by
  cases p with
  | nil => exact countsFromNewEnd_nil _ q
  | cons seg p =>
      cases q with
      | nil => rfl
      | cons seg' q =>
          rw [countsFromNewEnd, shape_object]
          cases seg <;> cases seg' <;> simp

end Nodes

section Changes

variable {t : T} {parents : List Seg} {r : α}

theorem get_append (t : T) (p q : List Seg) : get t (p ++ q) = (get t p).bind fun c => get c q := by
  induction p generalizing t with
  | nil => rfl
  | cons seg p ih =>
      rw [List.cons_append]
      cases hs : shape t with
      | leaf => rw [get_leaf hs, get_leaf hs, Option.bind_none]
      | object m =>
          cases seg with
          | idx i => rw [get_idx hs, get_idx hs, Option.bind_none]
          | key k =>
              rw [get_key hs, get_key hs, Option.bind_assoc]
              exact Option.bind_congr fun c _ => ih c
      | array a =>
          rw [get_element hs, get_element hs, Option.bind_assoc]
          refine Option.bind_congr fun i _ => ?_
          rw [Option.bind_assoc]
          exact Option.bind_congr fun c _ => ih c

/-- The node that is changed: the one at the path, or an object made for it. -/
def Parent (t : T) (parents : List Seg) (o : T) : Prop := get t parents = some o ∨ get t parents = none ∧ o = object []

theorem Parent.eq_empty {o : T} (h : Parent (object []) parents o) : o = object [] := by
  rcases h with h | ⟨-, rfl⟩
  · cases parents with
    | nil => exact (Option.some.inj h).symm
    | cons seg parents =>
        rw [get_empty] at h
        exact nomatch h
  · rfl

/-- Below a member the node is one of the member, which is an empty object where it is missing. -/
theorem Parent.of_member {m : Members T} {o : T} (h : shape t = .object m) {k : String}
    (ho : Parent ((m.lookup k).getD (object [])) parents o) : Parent t (.key k :: parents) o := by
  rw [Parent, get_key h]
  cases hc : m.lookup k with
  | some c =>
      rw [hc] at ho
      exact ho
  | none =>
      rw [hc] at ho
      exact .inr ⟨rfl, ho.eq_empty⟩

theorem Parent.of_element {a : List T} {i : Nat} {c o : T} {seg : Seg} (h : shape t = .array a)
    (he : element a seg = some (i, c)) (ho : Parent c parents o) : Parent t (seg :: parents) o := by
  rwa [Parent, get_of_element h he]

/-- What a change of the parent has done, read from the parent on. -/
theorem get_parentMut {f : T → T × Except String α} (hok : (parentMut f t parents).2 = .ok r) :
    ∃ o, Parent t parents o ∧ (f o).2 = .ok r ∧
      ∀ q, get (parentMut f t parents).1 (parents ++ q) = get (f o).1 q := by
  induction parents generalizing t with
  | nil => exact ⟨t, .inl rfl, hok, fun q => rfl⟩
  | cons seg parents ih =>
      rw [parentMut] at hok ⊢
      cases hs : shape t with
      | leaf =>
          rw [hs] at hok
          exact nomatch hok
      | object m =>
          rw [hs] at hok
          cases seg with
          | idx i => exact nomatch hok
          | key k =>
              obtain ⟨o, ho, hr, hget⟩ := ih hok
              exact ⟨o, .of_member hs ho, hr, fun q => (get_object_insert k _ _).trans (hget q)⟩
      | array a =>
          rw [hs] at hok
          dsimp only at hok ⊢
          cases he : element a seg with
          | none =>
              rw [he] at hok
              exact nomatch hok
          | some p =>
              obtain ⟨i, c⟩ := p
              rw [he] at hok
              obtain ⟨o, ho, hr, hget⟩ := ih hok
              exact ⟨o, .of_element hs he ho, hr, fun q => (get_array_set he _).trans (hget q)⟩

/-- A change in place is one of the parent. -/
theorem parentMut_of_getMut {f : T → T × α} {t' : T} (h : getMut f t parents = some (t', r)) :
    parentMut (fun o => ((f o).1, (.ok (f o).2 : Except String α))) t parents = (t', .ok r) ∧ ∃ o, get t parents = some o := by
  induction parents generalizing t t' with
  | nil =>
      rw [getMut, Option.some.injEq] at h
      rw [parentMut, h]
      exact ⟨rfl, t, rfl⟩
  | cons seg parents ih =>
      rw [getMut] at h
      rw [parentMut]
      cases hs : shape t with
      | leaf =>
          rw [hs] at h
          exact nomatch h
      | object m =>
          rw [hs] at h
          cases seg with
          | idx i => exact nomatch h
          | key k =>
              obtain ⟨c, hc, h⟩ := Option.bind_eq_some_iff.mp h
              obtain ⟨⟨c', r'⟩, hmut, heq⟩ := Option.map_eq_some_iff.mp h
              obtain ⟨rfl, rfl⟩ := Prod.mk.inj heq
              obtain ⟨hparent, hget⟩ := ih hmut
              dsimp only
              rw [hc, Option.getD_some, hparent, get_key hs, hc]
              exact ⟨rfl, hget⟩
      | array a =>
          rw [hs] at h
          obtain ⟨⟨i, c⟩, he, h⟩ := Option.bind_eq_some_iff.mp h
          obtain ⟨⟨c', r'⟩, hmut, heq⟩ := Option.map_eq_some_iff.mp h
          obtain ⟨rfl, rfl⟩ := Prod.mk.inj heq
          obtain ⟨hparent, hget⟩ := ih hmut
          dsimp only
          rw [he, get_of_element hs he]
          dsimp only
          rw [hparent]
          exact ⟨rfl, hget⟩

theorem getMut_isSome {f : T → T × α} {o : T} (h : get t parents = some o) : ∃ p, getMut f t parents = some p := by
  induction parents generalizing t with
  | nil => exact ⟨_, rfl⟩
  | cons seg parents ih =>
      rw [getMut]
      cases hs : shape t with
      | leaf =>
          rw [get_leaf hs] at h
          exact nomatch h
      | object m =>
          cases seg with
          | idx i =>
              rw [get_idx hs] at h
              exact nomatch h
          | key k =>
              rw [get_key hs] at h
              obtain ⟨c, hc, h⟩ := Option.bind_eq_some_iff.mp h
              obtain ⟨p, hp⟩ := ih h
              exact ⟨_, by dsimp only; rw [hc, Option.bind_some, hp]; rfl⟩
      | array a =>
          rw [get_element hs] at h
          obtain ⟨i, hi, h⟩ := Option.bind_eq_some_iff.mp h
          obtain ⟨c, hc, h⟩ := Option.bind_eq_some_iff.mp h
          obtain ⟨p, hp⟩ := ih h
          exact ⟨_, by dsimp only; rw [element_eq_some.mpr ⟨hi, hc⟩, Option.bind_some, hp]; rfl⟩

/-- What a change in place has done, read from the node on. -/
theorem get_getMut {f : T → T × α} {t' : T} (h : getMut f t parents = some (t', r)) :
    ∃ o, get t parents = some o ∧ (f o).2 = r ∧ ∀ q, get t' (parents ++ q) = get (f o).1 q := by
  obtain ⟨hparent, o, ho⟩ := parentMut_of_getMut h
  obtain ⟨o', ho', hr, hget⟩ := get_parentMut (congrArg Prod.snd hparent)
  rw [hparent] at hget
  rcases ho' with ho' | ⟨hnone, -⟩
  · exact ⟨o', ho', Except.ok.inj hr, hget⟩
  · rw [ho] at hnone
    exact nomatch hnone

/-- A change below `parents` is seen by no path that diverges there, unless it adds what the path counts from. -/
theorem get_apart_parentMut {f : T → T × Except String α} (adds : Prop) {last : Seg}
    (hf : ∀ o q, Parent t parents o → (f o).2 = .ok r → Diverge o [last] q → (adds → countsFromNewEnd o [last] q = false) → get (f o).1 q = get o q)
    {q : List Seg} (hok : (parentMut f t parents).2 = .ok r) (hq : Diverge t (parents ++ [last]) q)
    (hback : adds → countsFromNewEnd t (parents ++ [last]) q = false) : get (parentMut f t parents).1 q = get t q := by
  induction parents generalizing t q with
  | nil => exact hf t q (.inl rfl) hok hq hback
  | cons seg parents ih =>
      cases q with
      | nil => exact absurd hq (not_apart_nil _)
      | cons seg' q =>
          rw [parentMut] at hok ⊢
          rw [List.cons_append] at hq hback
          cases hs : shape t with
          | leaf => rfl
          | object m =>
              rw [hs] at hok
              cases seg with
              | idx i => exact nomatch hok
              | key k =>
                  cases seg' with
                  | idx i => rw [get_idx hs, get_idx (shape_object _)]
                  | key l =>
                      dsimp only
                      rw [get_key hs, get_key (shape_object _), Members.lookup_insert]
                      by_cases hkl : l = k
                      · subst hkl
                        rw [if_pos rfl, Option.bind_some]
                        rw [Diverge, resolve_key hs, resolve_key hs, apart_cons] at hq
                        have hq := hq.resolve_left (fun h => h rfl)
                        rw [countsFromNewEnd, hs] at hback
                        dsimp only at hok hback
                        cases hc : m.lookup l with
                        | some c =>
                            rw [hc] at hok hq hback
                            refine ih (fun o q ho => hf o q (.of_member hs ?_)) hok hq (by simpa using hback)
                            rwa [hc]
                        | none =>
                            rw [hc] at hok hq
                            rw [Option.getD_none] at hok ⊢
                            have hempty : Diverge (object [] : T) (parents ++ [last]) q := by
                              rwa [Diverge, resolve_empty, resolve_empty]
                            have hmade (o : T) (ho : Parent (object []) parents o) : Parent t (.key l :: parents) o := by
                              refine .of_member hs ?_
                              rwa [hc]
                            rw [ih (fun o q ho => hf o q (hmade o ho)) hok hempty fun _ => countsFromNewEnd_empty _ _,
                              Option.bind_none]
                            cases q with
                            | nil => exact absurd hempty (not_apart_nil _)
                            | cons seg q => exact get_empty seg q
                      · rw [if_neg hkl]
          | array a =>
              rw [hs] at hok
              dsimp only at hok ⊢
              cases he : element a seg with
              | none => rfl
              | some p =>
                  obtain ⟨i, c⟩ := p
                  obtain ⟨hi, hc⟩ := element_eq_some.mp he
                  rw [he] at hok
                  dsimp only
                  by_cases hj : positionFor seg' a.length false = some i
                  · have he' : element a seg' = some (i, c) := element_eq_some.mpr ⟨hj, hc⟩
                    rw [get_array_set he', get_of_element hs he']
                    rw [Diverge, resolve_array hs (positionFor_true hi), resolve_array hs (positionFor_true hj), apart_cons, hc] at hq
                    refine ih (fun o q ho => hf o q (.of_element hs he ho)) hok (hq.resolve_left fun h => h rfl) fun hadds => ?_
                    have hb := hback hadds
                    rw [countsFromNewEnd, hs] at hb
                    dsimp only at hb
                    rw [if_neg (by simp), he, hj] at hb
                    simpa using hb
                  · rw [get_element hs, get_element (shape_array _), List.length_set]
                    refine Option.bind_congr fun j hj' => ?_
                    rw [List.getElem?_set_ne]
                    rintro rfl
                    exact hj hj'

end Changes

section Laws

variable {t value : T} {path q : List Seg}

/-- A path that is not empty, as the steps to the parent and the last one. -/
theorem exists_concat (h : path ≠ []) : ∃ parents last, path = parents ++ [last] :=
  ⟨_, _, (List.dropLast_append_getLast h).symm⟩

theorem set_concat (t : T) (parents : List Seg) (last : Seg) (value : T) :
    set t (parents ++ [last]) value = parentMut (setLast last value) t parents := by
  rw [set, List.getLast?_concat, List.dropLast_concat]

theorem get_setLast {o : T} {last : Seg} (h : (setLast last value o).2 = .ok ()) :
    get (setLast last value o).1 [last] = some value := by
  rw [setLast] at h ⊢
  cases hs : shape o with
  | leaf =>
      rw [hs] at h
      exact nomatch h
  | object m =>
      rw [hs] at h
      cases last with
      | idx i => exact nomatch h
      | key k => exact get_object_insert k value []
  | array a =>
      rw [hs] at h
      dsimp only at h ⊢
      cases hi : positionFor last a.length true with
      | none =>
          rw [hi] at h
          exact nomatch h
      | some i =>
          dsimp only
          by_cases hend : i = a.length
          · subst hend
            have he : element (a ++ [value]) last = some (a.length, value) := by
              refine element_eq_some.mpr ⟨?_, by simp⟩
              rw [List.length_append]
              exact positionFor_added hi
            rw [if_pos rfl, get_of_element (shape_array _) he]
            rfl
          · have hlt : i < a.length := lt_of_le_of_ne (positionFor_le hi) hend
            have he : element a last = some (i, a[i]) :=
              element_eq_some.mpr ⟨positionFor_false hi hlt, List.getElem?_eq_getElem hlt⟩
            rw [if_neg hend]
            exact get_array_set he []

/-- What is set is read. -/
theorem get_set (h : (set t path value).2 = .ok ()) : get (set t path value).1 path = some value := by
  by_cases hnil : path = []
  · subst hnil
    rfl
  · obtain ⟨parents, last, rfl⟩ := exists_concat hnil
    rw [set_concat] at h ⊢
    obtain ⟨o, -, hok, hget⟩ := get_parentMut h
    rw [hget]
    exact get_setLast hok

/-- What diverges from a member in its object is another member. -/
theorem Diverge.ne_key {o : T} {m : Members T} {k l : String} (hs : shape o = .object m)
    (hq : Diverge o [.key k] (.key l :: q)) : l ≠ k := by
  rintro rfl
  rw [Diverge, resolve_key hs, resolve_key hs, apart_cons] at hq
  rcases hq with hq | hq
  · exact hq rfl
  · cases hl : m.lookup l with
    | none =>
        rw [hl] at hq
        exact hq.1 List.nil_prefix
    | some c =>
        rw [hl] at hq
        exact hq.1 List.nil_prefix

theorem get_apart_setLast {o : T} {last : Seg} (hok : (setLast last value o).2 = .ok ()) (hq : Diverge o [last] q)
    (hback : countsFromNewEnd o [last] q = false) : get (setLast last value o).1 q = get o q := by
  cases q with
  | nil => exact absurd hq (not_apart_nil _)
  | cons seg q =>
      rw [setLast] at hok ⊢
      cases hs : shape o with
      | leaf => rfl
      | object m =>
          rw [hs] at hok
          cases last with
          | idx i => exact nomatch hok
          | key k =>
              cases seg with
              | idx i => rw [get_idx hs, get_idx (shape_object _)]
              | key l =>
                  dsimp only
                  rw [get_key hs, get_key (shape_object _), Members.lookup_insert, if_neg (Diverge.ne_key hs hq)]
      | array a =>
          rw [hs] at hok
          dsimp only at hok ⊢
          cases hi : positionFor last a.length true with
          | none => rfl
          | some i =>
              dsimp only
              have hne : positionFor seg a.length true ≠ some i := by
                intro hseg
                rw [Diverge, resolve_array hs hi, resolve_array hs hseg, apart_cons] at hq
                rcases hq with hq | hq
                · exact hq rfl
                · rcases ha : a[i]? with _ | c
                  · rw [ha] at hq
                    exact hq.1 List.nil_prefix
                  · rw [ha] at hq
                    exact hq.1 List.nil_prefix
              rw [get_element hs, get_element (shape_array _)]
              by_cases hend : i = a.length
              · subst hend
                rw [countsFromNewEnd, hs] at hback
                simp [hi] at hback
                rw [if_pos rfl, List.length_append, List.length_singleton, positionFor_longer hback hne]
                refine Option.bind_congr fun j hj => ?_
                rw [List.getElem?_append_left (positionFor_lt hj)]
              · rw [if_neg hend, List.length_set]
                refine Option.bind_congr fun j hj => ?_
                rw [List.getElem?_set_ne]
                rintro rfl
                exact hne (positionFor_true hj)

/-- What a path sees that diverges from the one that is set, and does not count from a new end. -/
theorem get_apart_set (hok : (set t path value).2 = .ok ()) (hq : Diverge t path q)
    (hback : countsFromNewEnd t path q = false) : get (set t path value).1 q = get t q := by
  by_cases hnil : path = []
  · subst hnil
    exact absurd List.nil_prefix hq.1
  · obtain ⟨parents, last, rfl⟩ := exists_concat hnil
    rw [set_concat] at hok ⊢
    refine get_apart_parentMut True (fun o q _ h hd hb => ?_) hok hq fun _ => hback
    exact get_apart_setLast h hd (hb trivial)

theorem delete_concat (t : T) (parents : List Seg) (last : Seg) :
    delete t (parents ++ [last]) = (getMut (deleteLast last) t parents).getD (t, false) := by
  rw [delete, List.getLast?_concat, List.dropLast_concat]

variable {parents : List Seg} {last : Seg}

/-- The last step of the path is not taken in an array. -/
def EndsInMember (t : T) (parents : List Seg) : Prop := ∀ a : List T, get t parents ≠ some (array a)

omit [DocTree T] in
theorem lookup_shiftRemove_ne {k l : String} (h : l ≠ k) (m : Members T) : (Members.shiftRemove k m).lookup l = m.lookup l := by
  induction m with
  | nil => rfl
  | cons p m ih =>
      obtain ⟨k', c⟩ := p
      rw [Members.shiftRemove]
      by_cases hk : k = k'
      · rw [if_pos hk, Members.lookup_cons, if_neg (hk ▸ h)]
      · rw [if_neg hk, Members.lookup_cons, Members.lookup_cons, ih]

omit [DocTree T] in
theorem lookup_shiftRemove {k : String} {m : Members T} (h : (m.map Prod.fst).Nodup) :
    (Members.shiftRemove k m).lookup k = none := by
  induction m with
  | nil => rfl
  | cons p m ih =>
      obtain ⟨k', c⟩ := p
      rw [List.map_cons, List.nodup_cons] at h
      rw [Members.shiftRemove]
      by_cases hk : k = k'
      · rw [if_pos hk, List.lookup_eq_none_iff]
        intro p hp
        rw [bne_iff_ne]
        rintro rfl
        exact h.1 (List.mem_map.mpr ⟨p, hp, hk⟩)
      · rw [if_neg hk, Members.lookup_cons, if_neg hk, ih h.2]

/-- A member that is deleted is not found again. -/
theorem get_delete (hmember : EndsInMember t parents) (hnames : ∀ m, get t parents = some (object m) → (m.map Prod.fst).Nodup) :
    get (delete t (parents ++ [last])).1 (parents ++ [last]) = none := by
  rw [delete_concat]
  cases hmut : getMut (deleteLast last) t parents with
  | none =>
      rw [Option.getD_none, get_append]
      cases ho : get t parents with
      | none => rfl
      | some o =>
          obtain ⟨p, hp⟩ := getMut_isSome (f := deleteLast last) ho
          rw [hmut] at hp
          exact nomatch hp
  | some p =>
      obtain ⟨t', r⟩ := p
      obtain ⟨o, ho, -, hget⟩ := get_getMut hmut
      rw [Option.getD_some, hget, deleteLast]
      cases hs : shape o with
      | leaf => exact get_leaf hs last []
      | array a => exact absurd (ho.trans (congrArg some (eq_array o a hs))) (hmember a)
      | object m =>
          cases last with
          | idx i => exact get_idx hs i []
          | key k =>
              have hm := hnames m (ho.trans (congrArg some (eq_object o m hs)))
              dsimp only
              rw [get_key (shape_object _), lookup_shiftRemove hm, Option.bind_none]

theorem get_apart_deleteLast {o : T} (hmember : ∀ a, shape o ≠ .array a) (hq : Diverge o [last] q) :
    get (deleteLast last o).1 q = get o q := by
  rw [deleteLast]
  cases hs : shape o with
  | leaf => rfl
  | array a => exact absurd hs (hmember a)
  | object m =>
      cases last with
      | idx i => rfl
      | key k =>
          cases q with
          | nil => exact absurd hq (not_apart_nil _)
          | cons seg q =>
              cases seg with
              | idx i => rw [get_idx hs, get_idx (shape_object _)]
              | key l =>
                  dsimp only
                  rw [get_key hs, get_key (shape_object _), lookup_shiftRemove_ne]
                  exact Diverge.ne_key hs hq

theorem get_apart_delete (hmember : EndsInMember t parents) (hq : Diverge t (parents ++ [last]) q) :
    get (delete t (parents ++ [last])).1 q = get t q := by
  rw [delete_concat]
  cases hmut : getMut (deleteLast last) t parents with
  | none => rfl
  | some p =>
      obtain ⟨t', r⟩ := p
      obtain ⟨hparent, o, ho⟩ := parentMut_of_getMut hmut
      have hlast := get_apart_parentMut False (fun o' q' ho' _ hd _ => get_apart_deleteLast ?_ hd) (congrArg Prod.snd hparent) hq nofun
      · rw [hparent] at hlast
        exact hlast
      · rintro a hs
        rcases ho' with ho' | ⟨hnone, -⟩
        · exact hmember a (ho'.trans (congrArg some (eq_array o' a hs)))
        · rw [ho] at hnone
          exact nomatch hnone

theorem insert_concat (t : T) (parents : List Seg) (last : Seg) (value : T) : insert t (parents ++ [last]) value =
    (getMut (insertLast last value) t parents).getD (t, .error noArray) := by
  rw [insert, List.getLast?_concat, List.dropLast_concat]

theorem extend_ok {values : List T} {n : Nat}
    (h : ((getMut (extend values) t path).getD (t, .error notArray)).2 = .ok n) :
    ∃ a, get t path = some (array a) ∧
      get ((getMut (extend values) t path).getD (t, .error notArray)).1 path = some (array (a ++ values)) ∧
      n = (a ++ values).length := by
  cases hmut : getMut (extend values) t path with
  | none =>
      rw [hmut] at h
      exact nomatch h
  | some p =>
      obtain ⟨t', r⟩ := p
      rw [hmut] at h
      obtain ⟨o, ho, hr, hget⟩ := get_getMut hmut
      have hnode := hget []
      obtain rfl : r = .ok n := h
      rw [List.append_nil] at hnode
      rw [Option.getD_some, hnode]
      rw [extend] at hr ⊢
      cases hs : shape o with
      | leaf =>
          rw [hs] at hr
          exact nomatch hr
      | object m =>
          rw [hs] at hr
          exact nomatch hr
      | array a =>
          rw [hs] at hr
          refine ⟨a, ho.trans (congrArg some (eq_array o a hs)), rfl, ?_⟩
          rw [List.length_append]
          exact (Except.ok.inj hr).symm

/-- The elements of the array with the new ones after them, and how many they are. -/
theorem append_ok {values : List T} {n : Nat} (h : (append t path values).2 = .ok n) :
    ∃ a, (get t path = some (array a) ∨ get t path = none ∧ a = []) ∧
      get (append t path values).1 path = some (array (a ++ values)) ∧ n = (a ++ values).length := by
  rw [append, made] at h ⊢
  cases hget : get t path with
  | some o =>
      rw [hget] at h
      obtain ⟨a, ha, hnew, hn⟩ := extend_ok h
      exact ⟨a, .inl (hget.symm.trans ha), hnew, hn⟩
  | none =>
      rw [hget] at h
      simp only [Option.isNone_none, if_true] at h ⊢
      cases hset : set t path (array []) with
      | mk t₁ r =>
          rw [hset] at h
          cases r with
          | error e => exact nomatch h
          | ok u =>
              have hmade := get_set (congrArg Prod.snd hset)
              rw [hset] at hmade
              obtain ⟨a, ha, hnew, hn⟩ := extend_ok h
              have hnil : Shape.array a = Shape.array ([] : List T) := by
                rw [← shape_array, ← shape_array, Option.some.inj (ha.symm.trans hmade)]
              exact ⟨a, .inr ⟨trivial, Shape.array.inj hnil⟩, hnew, hn⟩

omit [DocTree T] in
theorem insertIdx_eq {a : List T} {i : Nat} (h : i ≤ a.length) : a.insertIdx i value = a.take i ++ value :: a.drop i := by
  induction a generalizing i with
  | nil =>
      obtain rfl := Nat.le_zero.mp h
      rfl
  | cons c a ih =>
      cases i with
      | zero => rfl
      | succ i => rw [List.insertIdx_succ_cons, ih (Nat.le_of_succ_le_succ h), List.take_succ_cons, List.drop_succ_cons, List.cons_append]

/-- The elements of the array with the new one before the one that was there, and how many they are. -/
theorem insert_ok {value : T} {n : Nat} (h : (insert t path value).2 = .ok n) :
    ∃ parents last a i, path = parents ++ [last] ∧ get t parents = some (array a) ∧
      positionFor last a.length true = some i ∧
      get (insert t path value).1 parents = some (array (a.take i ++ value :: a.drop i)) ∧ n = a.length + 1 := by
  by_cases hnil : path = []
  · subst hnil
    exact nomatch h
  · obtain ⟨parents, last, rfl⟩ := exists_concat hnil
    rw [insert_concat] at h ⊢
    cases hmut : getMut (insertLast last value) t parents with
    | none =>
        rw [hmut] at h
        exact nomatch h
    | some p =>
        obtain ⟨t', r⟩ := p
        rw [hmut] at h
        obtain ⟨o, ho, hr, hget⟩ := get_getMut hmut
        have hnode := hget []
        obtain rfl : r = .ok n := h
        rw [List.append_nil] at hnode
        rw [insertLast] at hr hnode
        cases hs : shape o with
        | leaf =>
            rw [hs] at hr
            exact nomatch hr
        | object m =>
            rw [hs] at hr
            exact nomatch hr
        | array a =>
            rw [hs] at hr hnode
            dsimp only at hr hnode
            cases hi : positionFor last a.length true with
            | none =>
                rw [hi] at hr
                exact nomatch hr
            | some i =>
                rw [hi] at hr hnode
                refine ⟨parents, last, a, i, rfl, ho.trans (congrArg some (eq_array o a hs)), hi, ?_, (Except.ok.inj hr).symm⟩
                rw [Option.getD_some, hnode, ← insertIdx_eq (positionFor_le hi)]
                rfl

end Laws

/-- What the changes at paths do, and what they leave alone. -/
structure TouchesOnly {N : Type} (get : T → List Seg → Option T) (set : T → List Seg → T → T × Except String Unit)
    (delete : T → List Seg → T × Bool) (append : T → List Seg → List T → T × Except String Nat)
    (insert : T → List Seg → T → T × Except String Nat) (plus : Option T → N → Except String T)
    (incr : T → List Seg → N → T × Except String T) : Prop where
  get_set : ∀ t path value, (set t path value).2 = .ok () → get (set t path value).1 path = some value
  get_apart_set : ∀ t path value q, (set t path value).2 = .ok () → Diverge t path q → countsFromNewEnd t path q = false →
    get (set t path value).1 q = get t q
  get_delete : ∀ t parents last, (∀ a, get t parents ≠ some (array a)) →
    (∀ m, get t parents = some (object m) → (m.map Prod.fst).Nodup) →
    get (delete t (parents ++ [last])).1 (parents ++ [last]) = none
  get_apart_delete : ∀ t parents last q, (∀ a, get t parents ≠ some (array a)) → Diverge t (parents ++ [last]) q →
    get (delete t (parents ++ [last])).1 q = get t q
  append_ok : ∀ t path values n, (append t path values).2 = .ok n →
    ∃ a, (get t path = some (array a) ∨ get t path = none ∧ a = []) ∧
      get (append t path values).1 path = some (array (a ++ values)) ∧ n = (a ++ values).length
  insert_ok : ∀ t path value n, (insert t path value).2 = .ok n →
    ∃ parents last a i, path = parents ++ [last] ∧ get t parents = some (array a) ∧
      positionFor last a.length true = some i ∧
      get (insert t path value).1 parents = some (array (a.take i ++ value :: a.drop i)) ∧ n = a.length + 1
  incr_ok : ∀ t path n t' v, incr t path n = (t', .ok v) ↔ plus (get t path) n = .ok v ∧ set t path v = (t', .ok ())
  incr_error : ∀ t path n e, plus (get t path) n = .error e → incr t path n = (t, .error e)

/-- An increment as a sum that is set. -/
def incrBy {N : Type} (plus : Option T → N → Except String T) (t : T) (path : List Seg) (n : N) : T × Except String T :=
  match plus (get t path) n with
  | .error e => (t, .error e)
  | .ok v => ((set t path v).1, (set t path v).2.map fun _ => v)

theorem touchesOnly {N : Type} (plus : Option T → N → Except String T) :
    TouchesOnly get set delete append insert plus (incrBy plus) where
  get_set _ _ _ := DocTree.get_set
  get_apart_set _ _ _ _ := DocTree.get_apart_set
  get_delete _ _ _ := DocTree.get_delete
  get_apart_delete _ _ _ _ := DocTree.get_apart_delete
  append_ok _ _ _ _ := DocTree.append_ok
  insert_ok _ _ _ _ := DocTree.insert_ok
  incr_ok t path n t' v := by
    rw [incrBy]
    constructor
    · intro h
      cases hplus : plus (get t path) n with
      | error e =>
          rw [hplus] at h
          exact nomatch (Prod.mk.inj h).2
      | ok w =>
          rw [hplus] at h
          obtain ⟨hdoc, hok⟩ := Prod.mk.inj h
          cases hset : set t path w with
          | mk t₁ r =>
              rw [hset] at hdoc hok
              cases r with
              | error e => exact nomatch hok
              | ok u =>
                  obtain rfl : w = v := Except.ok.inj hok
                  obtain rfl : t₁ = t' := hdoc
                  exact ⟨rfl, hset⟩
    · rintro ⟨hplus, hset⟩
      rw [hplus]
      dsimp only
      rw [hset]
      rfl
  incr_error t path n e h := by rw [incrBy, h]

end DocTree

open DocTree (TouchesOnly)

namespace JsonPath

instance : DocTree Json where
  shape
    | .array a => .array a
    | .object m => .object m
    | _ => .leaf
  array := .array
  object := .object
  shape_array _ := rfl
  shape_object _ := rfl
  eq_array t a h := by
    cases t <;> first
      | exact congrArg Json.array (Shape.array.inj h)
      | exact nomatch h
  eq_object t m h := by
    cases t <;> first
      | exact congrArg Json.object (Shape.object.inj h)
      | exact nomatch h

theorem position_eq (seg : Seg) (len : Nat) : position seg len = positionFor seg len false := by
  cases seg <;> simp [position, positionFor]

/-- The number at a path with another one added; a missing one counts as 0. -/
def plus (cur : Option Json) (n : Number) : Except String Json :=
  match cur with
  | none => .ok (.number n)
  | some (.number cur) => ((Num.add cur n).map .number).mapError cannot
  | some _ => .error notNumber

variable {α : Type}

theorem get_eq : get = DocTree.get := by
  funext j path
  induction path generalizing j with
  | nil => cases j <;> rfl
  | cons seg path ih =>
      cases j with
      | object m =>
          cases seg with
          | key k => exact Option.bind_congr fun c _ => ih c
          | idx i => rfl
      | array a =>
          rw [get, position_eq]
          exact Option.bind_congr fun i _ => Option.bind_congr fun c _ => ih c
      | _ => rfl

theorem parentMut_eq (f : Json → Json × Except String α) : parentMut f = DocTree.parentMut f := by
  funext j path
  induction path generalizing j with
  | nil => cases j <;> rfl
  | cons seg path ih =>
      cases j with
      | object m =>
          cases seg with
          | key k =>
              rw [parentMut, ih]
              rfl
          | idx i => rfl
      | array a =>
          simp only [parentMut, DocTree.parentMut, DocTree.shape, DocTree.element]
          cases (positionFor seg a.length false).bind fun i => a[i]?.map fun c => (i, c) with
          | none => rfl
          | some p =>
              dsimp only
              rw [ih]
              rfl
      | _ => simp only [parentMut, DocTree.parentMut, DocTree.shape]

theorem getMut_eq (f : Json → Json × α) : getMut f = DocTree.getMut f := by
  funext j path
  induction path generalizing j with
  | nil => cases j <;> rfl
  | cons seg path ih =>
      cases j with
      | object m =>
          cases seg with
          | key k =>
              simp only [getMut, DocTree.getMut, DocTree.shape, ih]
              rfl
          | idx i => simp only [getMut, DocTree.getMut, DocTree.shape]
      | array a =>
          simp only [getMut, DocTree.getMut, DocTree.shape, ih]
          rfl
      | _ => simp only [getMut, DocTree.getMut, DocTree.shape]

theorem set_eq : set = DocTree.set := by
  funext j path value
  have hlast (last : Seg) : setLast last value = DocTree.setLast last value := by
    funext j
    cases j <;> rfl
  rw [set, DocTree.set]
  cases path.getLast? with
  | none => rfl
  | some last => exact (congrArg (parentMut · j path.dropLast) (hlast last)).trans (by rw [parentMut_eq])

theorem delete_eq : delete = DocTree.delete := by
  funext j path
  have hlast (last : Seg) : deleteLast last = DocTree.deleteLast last := by
    funext j
    cases j <;> rfl
  rw [delete, DocTree.delete]
  cases path.getLast? with
  | none => rfl
  | some last =>
      dsimp only
      rw [hlast, getMut_eq]

theorem append_eq : append = DocTree.append := by
  funext j path values
  have hextend : extend values = DocTree.extend values := by
    funext j
    cases j <;> rfl
  have hmade : made j path = DocTree.made j path := by
    rw [made, DocTree.made, get_eq, set_eq]
    rfl
  rw [append, DocTree.append, hmade, hextend, getMut_eq]
  rcases DocTree.made j path with ⟨t, _ | u⟩
  · rfl
  · rfl

theorem insert_eq : insert = DocTree.insert := by
  funext j path value
  have hlast (last : Seg) : insertLast last value = DocTree.insertLast last value := by
    funext j
    cases j <;> rfl
  rw [insert, DocTree.insert]
  cases path.getLast? with
  | none => rfl
  | some last =>
      dsimp only
      rw [hlast, getMut_eq]
      rfl

theorem next_eq (j : Json) (path : List Seg) (n : Number) : next j path n = plus (get j path) n := by
  rw [next]
  rcases get j path with _ | v
  · rfl
  · cases v <;> rfl

theorem incr_eq : incr = DocTree.incrBy plus := by
  funext j path n
  rw [incr, DocTree.incrBy, next_eq, ← get_eq, ← set_eq]
  cases plus (get j path) n with
  | error e => rfl
  | ok v => rfl

theorem touchesOnly : TouchesOnly get set delete append insert plus incr := by
  rw [get_eq, set_eq, delete_eq, append_eq, insert_eq, incr_eq]
  exact DocTree.touchesOnly plus

end JsonPath

namespace DocPath

open JsonPath (positionFor cannot notNumber position_eq)

variable [Chrono] {α : Type}

instance : DocTree Doc where
  shape
    | .array a => .array a
    | .object m => .object m
    | _ => .leaf
  array := .array
  object := .object
  shape_array _ := rfl
  shape_object _ := rfl
  eq_array t a h := by
    cases t <;> first
      | exact congrArg Doc.array (Shape.array.inj h)
      | exact nomatch h
  eq_object t m h := by
    cases t <;> first
      | exact congrArg Doc.object (Shape.object.inj h)
      | exact nomatch h

theorem get_eq : get = DocTree.get := by
  funext j path
  induction path generalizing j with
  | nil => cases j <;> rfl
  | cons seg path ih =>
      cases j with
      | object m =>
          cases seg with
          | key k => exact Option.bind_congr fun c _ => ih c
          | idx i => rfl
      | array a =>
          rw [get, position_eq]
          exact Option.bind_congr fun i _ => Option.bind_congr fun c _ => ih c
      | _ => rfl

theorem parentMut_eq (f : Doc → Doc × Except String α) : parentMut f = DocTree.parentMut f := by
  funext j path
  induction path generalizing j with
  | nil => cases j <;> rfl
  | cons seg path ih =>
      cases j with
      | object m =>
          cases seg with
          | key k =>
              rw [parentMut, ih]
              rfl
          | idx i => rfl
      | array a =>
          simp only [parentMut, DocTree.parentMut, DocTree.shape, DocTree.element]
          cases (positionFor seg a.length false).bind fun i => a[i]?.map fun c => (i, c) with
          | none => rfl
          | some p =>
              dsimp only
              rw [ih]
              rfl
      | _ => simp only [parentMut, DocTree.parentMut, DocTree.shape]

theorem getMut_eq (f : Doc → Doc × α) : getMut f = DocTree.getMut f := by
  funext j path
  induction path generalizing j with
  | nil => cases j <;> rfl
  | cons seg path ih =>
      cases j with
      | object m =>
          cases seg with
          | key k =>
              simp only [getMut, DocTree.getMut, DocTree.shape, ih]
              rfl
          | idx i => simp only [getMut, DocTree.getMut, DocTree.shape]
      | array a =>
          simp only [getMut, DocTree.getMut, DocTree.shape, ih]
          rfl
      | _ => simp only [getMut, DocTree.getMut, DocTree.shape]

theorem set_eq : set = DocTree.set := by
  funext j path value
  have hlast (last : Seg) : setLast last value = DocTree.setLast last value := by
    funext j
    cases j <;> rfl
  rw [set, DocTree.set]
  cases path.getLast? with
  | none => rfl
  | some last => exact (congrArg (parentMut · j path.dropLast) (hlast last)).trans (by rw [parentMut_eq])

theorem delete_eq : delete = DocTree.delete := by
  funext j path
  have hlast (last : Seg) : deleteLast last = DocTree.deleteLast last := by
    funext j
    cases j <;> rfl
  rw [delete, DocTree.delete]
  cases path.getLast? with
  | none => rfl
  | some last =>
      dsimp only
      rw [hlast, getMut_eq]

theorem append_eq : append = DocTree.append := by
  funext j path values
  have hextend : extend values = DocTree.extend values := by
    funext j
    cases j <;> rfl
  have hmade : made j path = DocTree.made j path := by
    rw [made, DocTree.made, get_eq, set_eq]
    rfl
  rw [append, DocTree.append, hmade, hextend, getMut_eq]
  rcases DocTree.made j path with ⟨t, _ | u⟩
  · rfl
  · rfl

theorem insert_eq : insert = DocTree.insert := by
  funext j path value
  have hlast (last : Seg) : insertLast last value = DocTree.insertLast last value := by
    funext j
    cases j <;> rfl
  rw [insert, DocTree.insert]
  cases path.getLast? with
  | none => rfl
  | some last =>
      dsimp only
      rw [hlast, getMut_eq]
      rfl

variable [Arithmetic]

/-- The number at a path with another one added, by the rules of `Doc.add`. -/
def plus (cur : Option Doc) (n : Doc) : Except String Doc :=
  match cur with
  | none => .ok n
  | some (.int i) => (Doc.add (.int i) n).mapError cannot
  | some (.float f) => (Doc.add (.float f) n).mapError cannot
  | some (.decimal d) => (Doc.add (.decimal d) n).mapError cannot
  | some _ => .error notNumber

theorem next_eq (j : Doc) (path : List Seg) (n : Doc) : next j path n = plus (get j path) n := by
  rw [next]
  rcases get j path with _ | v
  · rfl
  · cases v <;> rfl

theorem incr_eq : incr = DocTree.incrBy plus := by
  funext j path n
  rw [incr, DocTree.incrBy, next_eq, ← get_eq, ← set_eq]
  cases plus (get j path) n with
  | error e => rfl
  | ok v => rfl

theorem touchesOnly : TouchesOnly get set delete append insert plus incr := by
  rw [get_eq, set_eq, delete_eq, append_eq, insert_eq, incr_eq]
  exact DocTree.touchesOnly plus

end DocPath

namespace DocTree

/-- A path update touches only its path, in JSON and in typed documents. -/
theorem update_touches_only [Chrono] [Arithmetic] :
    TouchesOnly JsonPath.get JsonPath.set JsonPath.delete JsonPath.append JsonPath.insert JsonPath.plus JsonPath.incr ∧
      TouchesOnly DocPath.get DocPath.set DocPath.delete DocPath.append DocPath.insert DocPath.plus DocPath.incr :=
  ⟨JsonPath.touchesOnly, DocPath.touchesOnly⟩

/-- An element that is added is the last one from then on. -/
theorem set_moves_last : ¬ ∀ (doc : Json) (path : List Seg) (value : Json) (q : List Seg),
    (JsonPath.set doc path value).2 = .ok () → Diverge doc path q →
      JsonPath.get (JsonPath.set doc path value).1 q = JsonPath.get doc q := by
  intro h
  have hset : JsonPath.set (.array [.null]) [.idx 1] (.bool true) = (.array [.null, .bool true], .ok ()) := by
    simp [JsonPath.set, JsonPath.parentMut, JsonPath.setLast, positionFor]
  have hdiverge : Diverge (.array [.null] : Json) [.idx 1] [.idx (-1)] := by
    decide
  have hsame := h (.array [.null]) [.idx 1] (.bool true) [.idx (-1)] (congrArg Prod.snd hset) hdiverge
  rw [hset] at hsame
  exact nomatch hsame

section Samples

local instance pathChrono : Chrono where
  DateTime := String
  NaiveTime := String
  decEqDateTime := inferInstance
  decEqNaiveTime := inferInstance
  iso t := t
  timeText t := t
  parseDatetime := some
  parseTime := some

local instance pathArithmetic : Arithmetic where
  checkedAdd _ _ := none
  jsonText _ := ""

def tagged : Json := .object [("name", .string "a"), ("tags", .array [.null, .bool true])]

theorem update_touches_only_tags : JsonPath.get (JsonPath.set tagged [.key "tags", .idx (-1)] (.string "b")).1
    [.key "tags", .key "0"] = JsonPath.get tagged [.key "tags", .key "0"] := by
  have hset : (JsonPath.set tagged [.key "tags", .idx (-1)] (.string "b")).2 = .ok () := rfl
  exact update_touches_only.1.get_apart_set tagged _ _ _ hset (by decide) (by decide)

end Samples

end DocTree

end KivaDb
