import Ridge.Lib.Json

/-!
# ridge_rt — encoding and decoding JSON values

`json_encode` writes a `JsonValue` by hand; `json_decode` leaves the reading to the host's strict
decoder and turns its terms back into a `JsonValue` (`runtime/ridge_rt.erl`). Text is a list of
characters.
-/

namespace Ridge

open Json (Term Digits IntPart FracPart ExpPart signed fromMembers)

/-- `io_lib:format("~p", [F])` of a finite float, and how the decoder reads a numeral with a
fraction or an exponent. The printer writes a fraction, and what it writes reads back. -/
structure FloatText (F : Type) where
  print : F → List Char
  read : List Char → F
  printed : ∀ x, ∃ neg d f e, IntPart d ∧ FracPart f ∧ f ≠ [] ∧ ExpPart e ∧
    print x = signed neg (d ++ (f ++ e))
  read_print : ∀ x, read (print x) = x

/-- `JsonValue`. A `json_object` is a map, of which its entries are given here; the decoder of
records builds `json_object_fields`, where a name may be repeated. -/
inductive JsonValue (F : Type) where
  | null
  | bool (b : Bool)
  | int (n : Int)
  | float (x : F)
  | text (t : List Char)
  | list (items : List (JsonValue F))
  | object (m : List (List Char × JsonValue F))
  | objectFields (fields : List (List Char × JsonValue F))

variable {F : Type}

/-! ## Encoding -/

/-- `binary:replace(T, C, By, [global])`. -/
def binaryReplace (c : Char) (replacement t : List Char) : List Char :=
  t.flatMap fun x => if x = c then replacement else [x]

/-- The escaping is minimal: backslash and double quote only. -/
def jsonEscaped (t : List Char) : List Char :=
  binaryReplace '"' ['\\', '"'] (binaryReplace '\\' ['\\', '\\'] t)

def jsonEncodeText (t : List Char) : List Char := '"' :: (jsonEscaped t ++ ['"'])

def integerToBinary (n : Int) : List Char := signed (n < 0) (Nat.toDigits 10 n.natAbs)

def joinBinaries : List (List Char) → List Char → List Char
  | [], _ => []
  | h :: t, sep => t.foldl (fun acc b => acc ++ (sep ++ b)) h

/-- `json_encode_object`, of pairs whose values are encoded. -/
def jsonEncodeObject (pairs : List (List Char × List Char)) : List Char :=
  '\x7b' :: (joinBinaries (pairs.map fun e => jsonEncodeText e.1 ++ ':' :: e.2) [','] ++ ['\x7d'])

/-- The keys in the order of their first occurrence. -/
def firstKeys {α : Type} (fields : List (List Char × α)) : List (List Char) :=
  (fields.foldl (fun (acc : List (List Char) × List (List Char)) e =>
    if e.1 ∈ acc.2 then acc else (e.1 :: acc.1, e.1 :: acc.2)) ([], [])).1.reverse

/-- Last value wins, first position survives. No duplicate keys are emitted. -/
def lastFields {α : Type} (fields : List (List Char × α)) : List (List Char × α) :=
  let values := fromMembers fields
  if values.length = fields.length then fields
  else (firstKeys fields).filterMap fun k => (KeyedList.lastOf k values).map (k, ·)

mutual

def jsonEncode (T : FloatText F) : JsonValue F → List Char
  | .null => ['n', 'u', 'l', 'l']
  | .bool true => ['t', 'r', 'u', 'e']
  | .bool false => ['f', 'a', 'l', 's', 'e']
  | .int n => integerToBinary n
  | .float x => T.print x
  | .text t => jsonEncodeText t
  | .list items => '[' :: (joinBinaries (jsonEncodeItems T items) [','] ++ [']'])
  | .object m => jsonEncodeObject (KeyedList.sort (jsonEncodePairs T m))
  | .objectFields fields => jsonEncodeObject (lastFields (jsonEncodePairs T fields))

def jsonEncodeItems (T : FloatText F) : List (JsonValue F) → List (List Char)
  | [] => []
  | v :: items => jsonEncode T v :: jsonEncodeItems T items

def jsonEncodePairs (T : FloatText F) : List (List Char × JsonValue F) → List (List Char × List Char)
  | [] => []
  | (k, v) :: pairs => (k, jsonEncode T v) :: jsonEncodePairs T pairs

end

/-! ## Decoding -/

mutual

def erlangToJsonValue : Term F → JsonValue F
  | .null => .null
  | .bool b => .bool b
  | .int n => .int n
  | .float x => .float x
  | .text t => .text t
  | .list items => .list (erlangToJsonItems items)
  | .map members => .object (erlangToJsonPairs members)

def erlangToJsonItems : List (Term F) → List (JsonValue F)
  | [] => []
  | v :: items => erlangToJsonValue v :: erlangToJsonItems items

def erlangToJsonPairs : List (List Char × Term F) → List (List Char × JsonValue F)
  | [] => []
  | (k, v) :: members => (k, erlangToJsonValue v) :: erlangToJsonPairs members

end

/-- `json_decode` returns `Ok v`: the host's decoder accepts the text, and what it denotes is `v`. -/
def JsonDecodes (T : FloatText F) (t : List Char) (v : JsonValue F) : Prop :=
  ∃ w, Json.Document T.read t w ∧ v = erlangToJsonValue w

/-! ## The value of a `JsonValue` -/

mutual

/-- Objects as maps: the last value of a repeated name. -/
def JsonValue.denotes : JsonValue F → Term F
  | .null => .null
  | .bool b => .bool b
  | .int n => .int n
  | .float x => .float x
  | .text t => .text t
  | .list items => .list (JsonValue.denotesItems items)
  | .object m => .map (fromMembers (JsonValue.denotesPairs m))
  | .objectFields fields => .map (fromMembers (JsonValue.denotesPairs fields))

def JsonValue.denotesItems : List (JsonValue F) → List (Term F)
  | [] => []
  | v :: items => JsonValue.denotes v :: JsonValue.denotesItems items

def JsonValue.denotesPairs : List (List Char × JsonValue F) → List (List Char × Term F)
  | [] => []
  | (k, v) :: pairs => (k, JsonValue.denotes v) :: JsonValue.denotesPairs pairs

end

/-- No control character. -/
def CleanText (t : List Char) : Prop := ∀ c ∈ t, 32 ≤ c.toNat

mutual

/-- No text or name that is written has a control character. The value of a repeated name is
written only if it is the last. -/
def JsonValue.Clean : JsonValue F → Prop
  | .text t => CleanText t
  | .list items => JsonValue.CleanItems items
  | .object m => JsonValue.CleanPairs m
  | .objectFields fields => JsonValue.CleanFields fields
  | _ => True

def JsonValue.CleanItems : List (JsonValue F) → Prop
  | [] => True
  | v :: items => JsonValue.Clean v ∧ JsonValue.CleanItems items

def JsonValue.CleanPairs : List (List Char × JsonValue F) → Prop
  | [] => True
  | (k, v) :: pairs => CleanText k ∧ JsonValue.Clean v ∧ JsonValue.CleanPairs pairs

def JsonValue.CleanFields : List (List Char × JsonValue F) → Prop
  | [] => True
  | (k, v) :: fields =>
    CleanText k ∧ (k ∈ fields.map Prod.fst ∨ JsonValue.Clean v) ∧ JsonValue.CleanFields fields

end

end Ridge

/-!
## JSON — names that are repeated

`json_object_fields` keeps the last value of each name at its first position. The fields that are
kept are those of a map in which the last write wins.
-/

namespace Ridge

open List KeyedList

open KeyedList (lastOf normalise)
open Json (fromMembers)

variable {α β : Type} {fields : List (List Char × α)}

theorem fromMembers_congr {l m : List (List Char × α)} (h : ∀ k, lastOf k l = lastOf k m) :
    fromMembers l = fromMembers m :=
  (normalise_eq_iff l m).mpr h

theorem fromMembers_sort (l : List (List Char × α)) :
    fromMembers (KeyedList.sort l) = fromMembers l :=
  fromMembers_congr fun k => lastOf_sort k l

/-! ## First occurrences -/

theorem firstKeys_fold (fields : List (List Char × α)) (seen : List (List Char))
    (hseen : seen.Nodup) :
    ∃ keys, fields.foldl (fun (acc : List (List Char) × List (List Char)) e =>
        if e.1 ∈ acc.2 then acc else (e.1 :: acc.1, e.1 :: acc.2)) (seen, seen) = (keys, keys) ∧
      keys.Nodup ∧ ∀ k, k ∈ keys ↔ k ∈ seen ∨ k ∈ fields.map Prod.fst := by
  induction fields generalizing seen with
  | nil => exact ⟨seen, rfl, hseen, fun k => by simp⟩
  | cons e fields ih =>
    rw [foldl_cons]
    by_cases he : e.1 ∈ seen
    · obtain ⟨keys, hfold, hnodup, hmem⟩ := ih seen hseen
      refine ⟨keys, ?_, hnodup, fun k => ?_⟩
      · simp only [he, if_true]
        exact hfold
      · rw [hmem, map_cons, mem_cons]
        refine ⟨fun h => h.imp_right .inr, fun h => ?_⟩
        rcases h with h | rfl | h
        · exact .inl h
        · exact .inl he
        · exact .inr h
    · obtain ⟨keys, hfold, hnodup, hmem⟩ := ih (e.1 :: seen) (nodup_cons.mpr ⟨he, hseen⟩)
      refine ⟨keys, ?_, hnodup, fun k => ?_⟩
      · simp only [he, if_false]
        exact hfold
      · rw [hmem, map_cons, mem_cons, mem_cons]
        exact ⟨fun h => h.elim (fun h => h.elim (.inr ∘ .inl) .inl) (.inr ∘ .inr),
          fun h => h.elim (.inl ∘ .inr) fun h => h.elim (.inl ∘ .inl) .inr⟩

theorem firstKeys_nodup (fields : List (List Char × α)) : (firstKeys fields).Nodup := by
  obtain ⟨keys, hfold, hnodup, -⟩ := firstKeys_fold fields [] nodup_nil
  rw [firstKeys, hfold]
  exact nodup_reverse.mpr hnodup

theorem mem_firstKeys {k : List Char} : k ∈ firstKeys fields ↔ k ∈ fields.map Prod.fst := by
  obtain ⟨keys, hfold, -, hmem⟩ := firstKeys_fold fields [] nodup_nil
  rw [firstKeys, hfold, mem_reverse, hmem]
  simp

theorem firstKeys_map (f : α → β) (fields : List (List Char × α)) :
    firstKeys (fields.map fun e => (e.1, f e.2)) = firstKeys fields := by
  rw [firstKeys, firstKeys, foldl_map]

/-! ## The fields that are kept -/

/-- As many members as fields: no name is repeated. -/
theorem nodup_of_length (h : (fromMembers fields).length = fields.length) :
    (fields.map Prod.fst).Nodup := by
  have hstrict := (strict_normalise fields).nodup
  have hsame : ((fromMembers fields).map Prod.fst).Perm (fields.map Prod.fst).dedup := by
    refine (perm_ext_iff_of_nodup hstrict (nodup_dedup _)).mpr fun k => ?_
    rw [mem_dedup, ← not_iff_not]
    refine lastOf_eq_none_iff.symm.trans (Iff.trans ?_ lastOf_eq_none_iff)
    rw [lastOf_normalise]
  have hlen : (fields.map Prod.fst).dedup.length = (fields.map Prod.fst).length := by
    rw [← hsame.length_eq, length_map, length_map, h]
  have hdedup := (dedup_sublist (fields.map Prod.fst)).eq_of_length hlen
  rw [← hdedup]
  exact nodup_dedup _

theorem mem_lastFields {e : List Char × α} :
    e ∈ lastFields fields ↔ lastOf e.1 fields = some e.2 := by
  rw [lastFields]
  by_cases h : (fromMembers fields).length = fields.length
  · simp only [h, if_true]
    exact (lastOf_iff_mem (nodup_of_length h)).symm
  · simp only [h, if_false]
    rw [mem_filterMap, fromMembers]
    simp only [lastOf_normalise]
    constructor
    · rintro ⟨k, -, hsome⟩
      obtain ⟨v, hv, rfl⟩ := Option.map_eq_some_iff.mp hsome
      exact hv
    · intro hlast
      refine ⟨e.1, mem_firstKeys.mpr (mem_map_of_mem (mem_of_lastOf hlast)), ?_⟩
      rw [hlast]
      rfl

theorem lastFields_nodup (fields : List (List Char × α)) :
    ((lastFields fields).map Prod.fst).Nodup := by
  rw [lastFields]
  by_cases h : (fromMembers fields).length = fields.length
  · simp only [h, if_true]
    exact nodup_of_length h
  · simp only [h, if_false]
    refine List.Nodup.sublist ?_ (firstKeys_nodup fields)
    have hsub : ∀ keys : List (List Char),
        ((keys.filterMap fun k => (lastOf k (fromMembers fields)).map (k, ·)).map
          Prod.fst).Sublist keys := by
      intro keys
      induction keys with
      | nil => exact List.Sublist.refl _
      | cons k keys ih =>
        rw [filterMap_cons]
        cases lastOf k (fromMembers fields) with
        | none => exact ih.cons k
        | some v => exact ih.cons_cons k
    exact hsub _

/-- Keeping the last field of each name keeps the map. -/
theorem fromMembers_lastFields (fields : List (List Char × α)) :
    fromMembers (lastFields fields) = fromMembers fields := by
  refine fromMembers_congr fun k => Option.ext fun v => ?_
  rw [lastOf_iff_mem (lastFields_nodup fields), mem_lastFields]

theorem lastFields_map (f : α → β) (fields : List (List Char × α)) :
    lastFields (fields.map fun e => (e.1, f e.2))
      = (lastFields fields).map fun e => (e.1, f e.2) := by
  have hlen : (fromMembers (fields.map fun e => (e.1, f e.2))).length
      = (fromMembers fields).length := by
    rw [fromMembers, normalise_map, length_map, fromMembers]
  rw [lastFields, lastFields]
  by_cases h : (fromMembers fields).length = fields.length
  · have h' : (fromMembers (fields.map fun e => (e.1, f e.2))).length
        = (fields.map fun e => (e.1, f e.2)).length := by rw [hlen, h, length_map]
    simp only [h, h', if_true]
  · have h' : ¬ (fromMembers (fields.map fun e => (e.1, f e.2))).length
        = (fields.map fun e => (e.1, f e.2)).length := by rw [hlen, length_map]; exact h
    simp only [h, h', if_false]
    rw [firstKeys_map, map_filterMap]
    refine filterMap_congr fun k _ => ?_
    rw [fromMembers, lastOf_normalise, lastOf_map, fromMembers,
      lastOf_normalise]
    cases lastOf k fields <;> rfl

theorem sort_map (f : α → β) (l : List (List Char × α)) :
    KeyedList.sort (l.map fun e => (e.1, f e.2))
      = (KeyedList.sort l).map fun e => (e.1, f e.2) := by
  refine (map_insertionSort (r := fun a b => a.1 ≤ b.1) (s := fun a b => a.1 ≤ b.1)
    (fun e => (e.1, f e.2)) l ?_).symm
  exact fun _ _ _ _ => Iff.rfl

end Ridge
