import KivaDb.Edits

namespace KivaDb

open JsonPath (positionFor)

variable [Chrono] {α : Type}

namespace Doc

theorem fromJson_array (a : List Json) : fromJson (.array a) = array (a.map fromJson) := by
  rw [fromJson, fromItems_eq_map]

theorem fromJson_object (m : List (String × Json)) : fromJson (.object m) = object (Members.mapValues fromJson m) := by
  rw [fromJson, fromMembers_eq_map]
  rfl

/-- A number is a leaf of a typed document too. -/
theorem fromNumber_cases (n : Number) :
    (∃ i, fromNumber n = int i) ∨ (∃ d, fromNumber n = decimal d) ∨ ∃ f, fromNumber n = float f := by
  unfold fromNumber
  split
  · exact .inl ⟨_, rfl⟩
  · exact .inr (.inl ⟨_, rfl⟩)
  · exact .inr (.inr ⟨_, rfl⟩)

end Doc

open Doc

/-- `g` does to a typed document what `f` does to the JSON one. -/
def Same (f : Json → Json × α) (g : Doc → Doc × α) : Prop := ∀ j, g (fromJson j) = ((f j).1 |> fromJson, (f j).2)

theorem get_fromJson (j : Json) (path : List Seg) : DocPath.get (fromJson j) path = (JsonPath.get j path).map fromJson := by
  induction path generalizing j with
  | nil =>
      cases j <;> rfl
  | cons seg path ih =>
      cases j with
      | object m =>
          rw [fromJson_object]
          cases seg with
          | key k =>
              rw [DocPath.get, JsonPath.get, Members.lookup_mapValues]
              rcases List.lookup k m with _ | child
              · rfl
              · exact ih child
          | idx i => rfl
      | array a =>
          rw [fromJson_array, DocPath.get, JsonPath.get, List.length_map]
          rcases JsonPath.position seg a.length with _ | i
          · rfl
          · rw [Option.bind_some, Option.bind_some, List.getElem?_map]
            rcases a[i]? with _ | child
            · rfl
            · exact ih child
      | number n => rcases fromNumber_cases n with ⟨x, h⟩ | ⟨x, h⟩ | ⟨x, h⟩ <;> rw [fromJson, h] <;> rfl
      | _ => rfl

/-- The element a segment designates, and where it is. -/
theorem element_map (a : List Json) (seg : Seg) :
    ((positionFor seg (a.map fromJson).length false).bind fun i => (a.map fromJson)[i]?.map fun d => (i, d)) =
      ((positionFor seg a.length false).bind fun i => a[i]?.map fun j => (i, j)).map fun p => (p.1, fromJson p.2) := by
  rw [List.length_map]
  rcases positionFor seg a.length false with _ | i
  · rfl
  · rw [Option.bind_some, Option.bind_some, List.getElem?_map]
    rcases a[i]? with _ | child <;> rfl

theorem parentMut_fromJson {f : Json → Json × Except String α} {g : Doc → Doc × Except String α} (h : Same f g)
    (path : List Seg) : Same (JsonPath.parentMut f · path) (DocPath.parentMut g · path) := by
  induction path with
  | nil =>
      intro j
      have := h j
      cases j <;> exact this
  | cons seg path ih =>
      intro j
      cases j with
      | object m =>
          rw [fromJson_object]
          cases seg with
          | key k =>
              have hchild : ((Members.mapValues fromJson m).lookup k).getD (object []) =
                  fromJson ((m.lookup k).getD (.object [])) := by
                rw [Members.lookup_mapValues]
                rcases List.lookup k m with _ | child <;> rfl
              have hrec : DocPath.parentMut g _ path = _ := ih ((m.lookup k).getD (.object []))
              simp only [DocPath.parentMut, JsonPath.parentMut, hchild]
              simp only [hrec, Members.insert_mapValues, fromJson_object]
          | idx i => exact congrArg (·, _) (fromJson_object m).symm
      | array a =>
          rw [fromJson_array]
          simp only [DocPath.parentMut, JsonPath.parentMut, element_map]
          rcases (positionFor seg a.length false).bind fun i => a[i]?.map fun j => (i, j) with _ | ⟨i, child⟩
          · simp only [Option.map_none, List.length_map, fromJson_array]
          · have hrec : DocPath.parentMut g _ path = _ := ih child
            simp only [Option.map_some]
            rw [hrec, fromJson_array, List.map_set]
      | number n =>
          rcases fromNumber_cases n with ⟨x, hx⟩ | ⟨x, hx⟩ | ⟨x, hx⟩ <;>
            simp only [fromJson, JsonPath.parentMut, hx, DocPath.parentMut]
      | _ => simp only [fromJson, JsonPath.parentMut, DocPath.parentMut]

theorem getMut_fromJson {f : Json → Json × α} {g : Doc → Doc × α} (h : Same f g) (j : Json) (path : List Seg) :
    DocPath.getMut g (fromJson j) path = (JsonPath.getMut f j path).map fun p => (fromJson p.1, p.2) := by
  induction path generalizing j with
  | nil =>
      have := congrArg some (h j)
      cases j <;> exact this
  | cons seg path ih =>
      cases j with
      | object m =>
          rw [fromJson_object]
          cases seg with
          | key k =>
              simp only [DocPath.getMut, JsonPath.getMut, Members.lookup_mapValues]
              rcases List.lookup k m with _ | child
              · rfl
              · simp only [Option.map_some, Option.bind_some, ih]
                rcases JsonPath.getMut f child path with _ | p
                · rfl
                · simp only [Option.map_some, Members.insert_mapValues, fromJson_object]
          | idx i => rfl
      | array a =>
          rw [fromJson_array]
          simp only [DocPath.getMut, JsonPath.getMut, element_map]
          rcases (positionFor seg a.length false).bind fun i => a[i]?.map fun j => (i, j) with _ | ⟨i, child⟩
          · rfl
          · simp only [Option.map_some, Option.bind_some, ih]
            rcases JsonPath.getMut f child path with _ | p
            · rfl
            · simp only [Option.map_some, fromJson_array, List.map_set]
      | number n =>
          rcases fromNumber_cases n with ⟨x, hx⟩ | ⟨x, hx⟩ | ⟨x, hx⟩ <;>
            simp only [fromJson, JsonPath.getMut, hx, DocPath.getMut, Option.map_none]
      | _ => simp only [fromJson, JsonPath.getMut, DocPath.getMut, Option.map_none]

theorem setLast_fromJson (last : Seg) (value : Json) :
    Same (JsonPath.setLast last value) (DocPath.setLast last (fromJson value)) := by
  intro j
  cases j with
  | object m =>
      cases last with
      | key k => simp only [JsonPath.setLast, DocPath.setLast, fromJson_object, Members.insert_mapValues]
      | idx i => simp only [JsonPath.setLast, DocPath.setLast, fromJson_object]
  | array a =>
      simp only [JsonPath.setLast, DocPath.setLast, fromJson_array, List.length_map]
      rcases positionFor last a.length true with _ | i
      · simp only [fromJson_array]
      · simp only [fromJson_array]
        split
        · rw [List.map_append, List.map_singleton]
        · rw [List.map_set]
  | number n =>
      rcases fromNumber_cases n with ⟨x, hx⟩ | ⟨x, hx⟩ | ⟨x, hx⟩ <;>
        simp only [fromJson, JsonPath.setLast, hx, DocPath.setLast]
  | _ => rfl

theorem set_fromJson (path : List Seg) (value : Json) :
    Same (JsonPath.set · path value) (DocPath.set · path (fromJson value)) := by
  intro j
  unfold JsonPath.set DocPath.set
  split
  · rfl
  · next last _ => exact parentMut_fromJson (setLast_fromJson last value) path.dropLast j

theorem deleteLast_fromJson (last : Seg) : Same (JsonPath.deleteLast last) (DocPath.deleteLast last) := by
  intro j
  cases j with
  | object m =>
      cases last with
      | key k =>
          simp only [JsonPath.deleteLast, DocPath.deleteLast, fromJson_object, Members.shiftRemove_mapValues,
            Members.lookup_mapValues, Option.isSome_map]
      | idx i => simp only [JsonPath.deleteLast, DocPath.deleteLast, fromJson_object]
  | array a =>
      simp only [JsonPath.deleteLast, DocPath.deleteLast, fromJson_array, List.length_map]
      rcases positionFor last a.length false with _ | i
      · simp only [fromJson_array]
      · simp only [fromJson_array, List.eraseIdx_map]
  | number n =>
      rcases fromNumber_cases n with ⟨x, hx⟩ | ⟨x, hx⟩ | ⟨x, hx⟩ <;>
        simp only [fromJson, JsonPath.deleteLast, hx, DocPath.deleteLast]
  | _ => rfl

theorem getD_fromJson (r : Option (Json × α)) (j : Json) (x : α) :
    (r.map fun p => (fromJson p.1, p.2)).getD (fromJson j, x) = (fromJson (r.getD (j, x)).1, (r.getD (j, x)).2) := by
  cases r with
  | none => rfl
  | some p => rfl

theorem delete_fromJson (path : List Seg) : Same (JsonPath.delete · path) (DocPath.delete · path) := by
  intro j
  simp only [JsonPath.delete, DocPath.delete]
  split
  · rfl
  · next last _ => rw [getMut_fromJson (deleteLast_fromJson last), getD_fromJson]

theorem extend_fromJson (values : List Json) :
    Same (JsonPath.extend values) (DocPath.extend (values.map fromJson)) := by
  intro j
  cases j with
  | array a => simp only [JsonPath.extend, DocPath.extend, fromJson_array, List.map_append, List.length_map]
  | object m => simp only [JsonPath.extend, DocPath.extend, fromJson_object]
  | number n =>
      rcases fromNumber_cases n with ⟨x, hx⟩ | ⟨x, hx⟩ | ⟨x, hx⟩ <;>
        simp only [fromJson, JsonPath.extend, hx, DocPath.extend]
  | _ => rfl

theorem made_fromJson (path : List Seg) : Same (JsonPath.made · path) (DocPath.made · path) := by
  intro j
  simp only [JsonPath.made, DocPath.made, get_fromJson, Option.isNone_map]
  split
  · exact set_fromJson path (.array []) j
  · rfl

theorem append_fromJson (path : List Seg) (values : List Json) :
    Same (JsonPath.append · path values) (DocPath.append · path (values.map fromJson)) := by
  intro j
  have hmade : DocPath.made (fromJson j) path = _ := made_fromJson path j
  simp only [JsonPath.append, DocPath.append, hmade]
  rcases JsonPath.made j path with ⟨j', e | u⟩
  · rfl
  · simp only [getMut_fromJson (extend_fromJson values), getD_fromJson]

theorem insertLast_fromJson (last : Seg) (value : Json) :
    Same (JsonPath.insertLast last value) (DocPath.insertLast last (fromJson value)) := by
  intro j
  cases j with
  | array a =>
      simp only [JsonPath.insertLast, DocPath.insertLast, fromJson_array, List.length_map]
      rcases positionFor last a.length true with _ | i
      · simp only [fromJson_array]
      · simp only [fromJson_array, List.map_insertIdx]
  | object m => simp only [JsonPath.insertLast, DocPath.insertLast, fromJson_object]
  | number n =>
      rcases fromNumber_cases n with ⟨x, hx⟩ | ⟨x, hx⟩ | ⟨x, hx⟩ <;>
        simp only [fromJson, JsonPath.insertLast, hx, DocPath.insertLast]
  | _ => rfl

theorem insert_fromJson (path : List Seg) (value : Json) :
    Same (JsonPath.insert · path value) (DocPath.insert · path (fromJson value)) := by
  intro j
  simp only [JsonPath.insert, DocPath.insert]
  split
  · rfl
  · next last _ => rw [getMut_fromJson (insertLast_fromJson last value), getD_fromJson]

variable [Arithmetic]

theorem next_fromJson (j : Json) (path : List Seg) (n : Number) :
    DocPath.next (fromJson j) path (fromNumber n) = (JsonPath.next j path n).map fromJson := by
  unfold DocPath.next JsonPath.next
  rw [get_fromJson]
  rcases JsonPath.get j path with _ | v
  · rfl
  · cases v with
    | number cur =>
        have hadd := add_fromNumber cur n
        rcases fromNumber_cases cur with ⟨x, hx⟩ | ⟨x, hx⟩ | ⟨x, hx⟩ <;>
          · rw [hx] at hadd
            simp only [Option.map_some, fromJson, hx, hadd]
            rcases Num.add cur n with e | r <;> rfl
    | _ => rfl

theorem incr_fromJson (j : Json) (path : List Seg) (n : Number) :
    DocPath.incr (fromJson j) path (fromNumber n) =
      (fromJson (JsonPath.incr j path n).1, (JsonPath.incr j path n).2.map fromJson) := by
  unfold DocPath.incr JsonPath.incr
  rw [next_fromJson]
  rcases JsonPath.next j path n with e | v
  · rfl
  · have hset : DocPath.set (fromJson j) path (fromJson v) = _ := set_fromJson path v j
    simp only [Except.map, hset]
    rcases (JsonPath.set j path v).2 with e | u <;> rfl

/-- JSON and typed documents change alike: the same change leaves the same document, and
fails with the same words or returns the same. -/
theorem edit_alike (j : Json) (path : List Seg) (change : Edit Json Number) :
    DocPath.edit (fromJson j) path (change.map fromJson fromNumber) =
      (fromJson (JsonPath.edit j path change).1, (JsonPath.edit j path change).2.map (Outcome.map fromJson)) := by
  cases change with
  | set value =>
      have h : DocPath.set (fromJson j) path (fromJson value) = _ := set_fromJson path value j
      simp only [Edit.map, DocPath.edit, JsonPath.edit, h, Prod.map, id]
      rcases (JsonPath.set j path value).2 with e | u <;> rfl
  | delete =>
      have h : DocPath.delete (fromJson j) path = _ := delete_fromJson path j
      simp only [Edit.map, DocPath.edit, JsonPath.edit, h, Prod.map, id]
      rfl
  | append values =>
      have h : DocPath.append (fromJson j) path (values.map fromJson) = _ := append_fromJson path values j
      simp only [Edit.map, DocPath.edit, JsonPath.edit, h, Prod.map, id]
      rcases (JsonPath.append j path values).2 with e | u <;> rfl
  | insert value =>
      have h : DocPath.insert (fromJson j) path (fromJson value) = _ := insert_fromJson path value j
      simp only [Edit.map, DocPath.edit, JsonPath.edit, h, Prod.map, id]
      rcases (JsonPath.insert j path value).2 with e | u <;> rfl
  | incr n =>
      simp only [Edit.map, DocPath.edit, JsonPath.edit, incr_fromJson, Prod.map, id]
      rcases (JsonPath.incr j path n).2 with e | u <;> rfl

end KivaDb
