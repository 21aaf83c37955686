import Npnpm.Library.KeyedMap
import Npnpm.Library.Text

/-!
# Typed readings of document trees

A YAML document is a tree of scalars, sequences and mappings. A type is read
from it in one of two ways: directly, where the wanted type decides what a
scalar means, or from a buffer that was filled before the type was known, where
every scalar has already been resolved to null, a number, a boolean or a string.
Untagged enumerations and flattened fields always read from the buffer.

## Implementation notes

Only success and the value read are kept of a reading. A structure is read in
two parts: `fields` settles which keys are known, repeated or unknown, and the
field readers then look at one value each.
-/

namespace Npnpm.Serde

open Npnpm

/-- What a scalar becomes when it is read without a wanted type. -/
inductive ScalarKind
  | null
  | bool (value : Bool)
  | int (value : Int)
  | float
  | string
deriving DecidableEq

/-- `borrowed` holds of a scalar whose text stands verbatim in the input. -/
inductive Document
  | scalar (text : Text) (kind : ScalarKind) (borrowed : Bool)
  | seq (items : List Document)
  | map (entries : List (Document × Document))

instance : Inhabited Document := ⟨.map []⟩

/-- A plain or quoted scalar that denotes a string. -/
def Document.str (text : Text) : Document := .scalar text .string true

inductive Reading
  | direct
  | buffered
deriving DecidableEq

abbrev Decoder (α : Type*) := Reading → Document → Option α

section Scalars

variable {α : Type*}

def string : Decoder Text
  | .direct, .scalar text _ _ => some text
  | .buffered, .scalar text .string _ => some text
  | _, _ => none

/-- A string that must be a slice of the input, as `&'de str` is. -/
def borrowedStr : Decoder Text
  | reading, .scalar text kind true => string reading (.scalar text kind true)
  | _, _ => none

def boolean : Decoder Bool
  | _, .scalar _ (.bool value) _ => some value
  | _, _ => none

/-- `try_from = "&'de str"`: a slice of the input that is then parsed. -/
def tryFromStr {E : Type*} (parse : Text → Except E α) : Decoder α := fun reading d =>
  (borrowedStr reading d).bind fun text => (parse text).toOption

end Scalars

section Containers

variable {α β : Type*}

def option (item : Decoder α) : Decoder (Option α) := fun reading d =>
  match d with
  | .scalar _ .null _ => some none
  | d => (item reading d).map some

def list (item : Decoder α) : Decoder (List α)
  | reading, .seq items => items.mapM (item reading)
  | _, _ => none

/-- The pairs of a mapping, in document order. -/
def entries (key : Decoder α) (value : Decoder β) (reading : Reading) :
    List (Document × Document) → Option (List (α × β))
  | [] => some []
  | e :: rest =>
      (key reading e.1).bind fun k =>
        (value reading e.2).bind fun v =>
          (entries key value reading rest).map fun es => (k, v) :: es

/-- A hash map keeps the last of several values under one key. -/
def hashMap [BEq α] (key : Decoder α) (value : Decoder β) : Decoder (KeyedMap α β)
  | reading, .map es => (entries key value reading es).map KeyedMap.ofList
  | _, _ => none

/-- The first variant that reads the buffered document wins. -/
def untagged (variants : List (Decoder α)) : Decoder α := fun _ d =>
  variants.findSome? fun variant => variant .buffered d

end Containers

section Values

/-- Equal scalar keys of one mapping. -/
def Document.sameKey : Document → Document → Bool
  | .scalar _ (.int a) _, .scalar _ (.int b) _ => a = b
  | .scalar a kind _, .scalar b kind' _ => kind = kind' && a = b
  | _, _ => false

mutual

/-- No mapping inside the document repeats a key. -/
def Document.keysDistinct : Document → Bool
  | .scalar _ _ _ => true
  | .seq items => itemsDistinct items
  | .map es => entriesDistinct es

def itemsDistinct : List Document → Bool
  | [] => true
  | d :: rest => d.keysDistinct && itemsDistinct rest

def entriesDistinct : List (Document × Document) → Bool
  | [] => true
  | (k, v) :: rest =>
      k.keysDistinct && v.keysDistinct && !(rest.any fun e => e.1.sameKey k) &&
        entriesDistinct rest

end

/-- An untyped value: any document without repeated keys. -/
def value : Decoder Document := fun _ d => if d.keysDistinct then some d else none

end Values

section Structures

/-- Which field a key names: `none` when the key cannot name one at all, and
`some none` when it names no field of the structure. A buffered number names a
field by position. -/
def identify (names : List Text) : Reading → Document → Option (Option Text)
  | .direct, .scalar text _ _ => some (if text ∈ names then some text else none)
  | .buffered, .scalar text .string _ => some (if text ∈ names then some text else none)
  | .buffered, .scalar _ (.int (.ofNat i)) _ => some names[i]?
  | _, _ => none

/-- The known fields of a mapping, none of them twice. -/
def mapFields (names : List Text) (denyUnknown : Bool) (reading : Reading) :
    List (Document × Document) → Option (List (Text × Document))
  | [] => some []
  | e :: rest =>
      (identify names reading e.1).bind fun field =>
        (mapFields names denyUnknown reading rest).bind fun known =>
          match field with
          | none => if denyUnknown then none else some known
          | some name =>
              if known.any (fun f => f.1 = name) then none else some ((name, e.2) :: known)

/-- The fields of a structure, from a mapping or, in order, from a sequence. -/
def fields (names : List Text) (denyUnknown : Bool) (reading : Reading) :
    Document → Option (List (Text × Document))
  | .map es => mapFields names denyUnknown reading es
  | .seq items => if items.length = names.length then some (names.zip items) else none
  | .scalar _ _ _ => none

variable {α : Type*}

def requiredField (item : Decoder α) (reading : Reading) (known : List (Text × Document))
    (name : Text) : Option α :=
  (known.lookup name).bind (item reading)

/-- A missing optional field and a null one both read as `none`. -/
def optionalField (item : Decoder α) (reading : Reading) (known : List (Text × Document))
    (name : Text) : Option (Option α) :=
  match known.lookup name with
  | none => some none
  | some d => option item reading d

/-- Keys that a structure with a flattened field leaves for that field: the
buffer holds them as strings. -/
def otherEntries (names : List Text) : List (Document × Document) → List (Document × Document)
  | [] => []
  | (.scalar text _ borrowed, v) :: rest =>
      if text ∈ names then otherEntries names rest
      else (.scalar text .string borrowed, v) :: otherEntries names rest
  | _ :: rest => otherEntries names rest

/-- Internally tagged enumerations: the tag, and what is left without it. -/
def splitTag (tag : Text) : Document → Option (Document × Document)
  | .map es =>
      match es.filter (fun e => e.1.sameKey (.str tag)) with
      | [e] => some (e.2, .map (es.filter fun e => !e.1.sameKey (.str tag)))
      | _ => none
  | .seq (d :: rest) => some (d, .seq rest)
  | _ => none

end Structures

section Keys

/-- The text of a key, whatever its quoting made of it. -/
def Document.keyText : Document → Option Text
  | .scalar text _ _ => some text
  | _ => none

theorem keyText_of_string {reading : Reading} {d : Document} {text : Text}
    (h : string reading d = some text) : d.keyText = some text := by
  cases d with
  | seq => cases reading <;> simp [string] at h
  | map => cases reading <;> simp [string] at h
  | scalar t kind borrowed =>
      cases reading <;> cases kind <;> simp_all [string, Document.keyText]

theorem mem_otherEntries {names : List Text} {top : List (Document × Document)}
    {e : Document × Document} (h : e ∈ otherEntries names top) :
    ∃ text kind borrowed, e.1 = .scalar text .string borrowed ∧ text ∉ names ∧
      (.scalar text kind borrowed, e.2) ∈ top := by
  induction top with
  | nil => simp [otherEntries] at h
  | cons a rest ih =>
      obtain ⟨key, v⟩ := a
      have lift : e ∈ otherEntries names rest →
          ∃ text kind borrowed, e.1 = .scalar text .string borrowed ∧ text ∉ names ∧
            (.scalar text kind borrowed, e.2) ∈ (key, v) :: rest := fun hin => by
        obtain ⟨text, kind, borrowed, he, hn, hm⟩ := ih hin
        exact ⟨text, kind, borrowed, he, hn, List.mem_cons_of_mem (key, v) hm⟩
      cases key with
      | seq items => exact lift h
      | map es => exact lift h
      | scalar text kind borrowed =>
          by_cases ht : text ∈ names
          · rw [otherEntries, if_pos ht] at h
            exact lift h
          · rw [otherEntries, if_neg ht, List.mem_cons] at h
            rcases h with rfl | h
            · exact ⟨text, kind, borrowed, rfl, ht, by simp⟩
            · exact lift h

theorem otherEntries_keys {names : List Text} {top : List (Document × Document)} :
    ∀ e ∈ otherEntries names top, ∃ text borrowed, e.1 = .scalar text .string borrowed := by
  intro e he
  obtain ⟨text, _, borrowed, h, _⟩ := mem_otherEntries he
  exact ⟨text, borrowed, h⟩

theorem mem_otherEntries_of_mem {names : List Text} {top : List (Document × Document)}
    {text : Text} {kind : ScalarKind} {borrowed : Bool} {v : Document}
    (h : (.scalar text kind borrowed, v) ∈ top) (hn : text ∉ names) :
    (.scalar text .string borrowed, v) ∈ otherEntries names top := by
  induction top with
  | nil => simp at h
  | cons a rest ih =>
      rcases List.mem_cons.mp h with rfl | hrest
      · simp [otherEntries, hn]
      · obtain ⟨key, w⟩ := a
        cases key with
        | seq items => exact ih hrest
        | map es => exact ih hrest
        | scalar text' kind' borrowed' =>
            by_cases ht : text' ∈ names
            · rw [otherEntries, if_pos ht]
              exact ih hrest
            · rw [otherEntries, if_neg ht]
              exact List.mem_cons_of_mem _ (ih hrest)

/-- A structure of one field that denies all others accepts an empty mapping, at
this stage, and the mapping of that field alone. -/
theorem mapFields_single_eq_some_iff (name : Text) {es : List (Document × Document)}
    (hkeys : ∀ e ∈ es, ∃ text borrowed, e.1 = .scalar text .string borrowed)
    (known : List (Text × Document)) :
    mapFields [name] true .buffered es = some known ↔
      (es = [] ∧ known = []) ∨
        ∃ borrowed v, es = [(.scalar name .string borrowed, v)] ∧ known = [(name, v)] := by
  induction es generalizing known with
  | nil => simp [mapFields, eq_comm]
  | cons e rest ih =>
      obtain ⟨key, v⟩ := e
      obtain ⟨text, borrowed, hkey⟩ := hkeys (key, v) (by simp)
      simp only at hkey
      subst hkey
      have ih := ih (fun e he => hkeys e (by simp [he]))
      by_cases ht : text = name
      · subst ht
        cases hrest : mapFields [text] true .buffered rest with
        | none =>
            have hne : rest ≠ [] := by
              rintro rfl
              simp [mapFields] at hrest
            simp [mapFields, identify, hrest, hne]
        | some known' =>
            rcases (ih known').mp hrest with ⟨rfl, rfl⟩ | ⟨borrowed', v', rfl, rfl⟩
            · have hone : mapFields [text] true .buffered [(.scalar text .string borrowed, v)] =
                  some [(text, v)] := by
                simp [mapFields, identify]
              rw [hone]
              constructor
              · intro h
                exact Or.inr ⟨borrowed, v, rfl, (Option.some.inj h).symm⟩
              · rintro (⟨h, -⟩ | ⟨_, _, h, rfl⟩)
                · cases h
                · cases h
                  rfl
            · simp [mapFields, identify]
      · cases hrest : mapFields [name] true .buffered rest with
        | none => simp [mapFields, identify, hrest, ht]
        | some known' => simp [mapFields, identify, hrest, ht]

end Keys

section Facts

variable {α β : Type*}

theorem entries_eq_some_cons {key : Decoder α} {value : Decoder β} {reading : Reading}
    {e : Document × Document} {rest : List (Document × Document)} {l : List (α × β)}
    (h : entries key value reading (e :: rest) = some l) :
    ∃ k v es, key reading e.1 = some k ∧ value reading e.2 = some v ∧
      entries key value reading rest = some es ∧ l = (k, v) :: es := by
  simp only [entries, Option.bind_eq_some_iff, Option.map_eq_some_iff] at h
  obtain ⟨k, hk, v, hv, es, hes, rfl⟩ := h
  exact ⟨k, v, es, hk, hv, hes, rfl⟩

/-- A mapping is read when each key and each value is. -/
theorem entries_isSome_iff (key : Decoder α) (value : Decoder β) (reading : Reading)
    (l : List (Document × Document)) :
    (entries key value reading l).isSome ↔
      ∀ e ∈ l, (key reading e.1).isSome ∧ (value reading e.2).isSome := by
  induction l with
  | nil => simp [entries]
  | cons e rest ih =>
      cases hk : key reading e.1 with
      | none => simp [entries, hk]
      | some k =>
          cases hv : value reading e.2 with
          | none => simp [entries, hk, hv]
          | some v => simp [entries, hk, hv, ih]

/-- The keys read from a mapping, in order. -/
theorem entries_keys {key : Decoder α} {value : Decoder β} {reading : Reading}
    {l : List (Document × Document)} {es : List (α × β)}
    (h : entries key value reading l = some es) :
    l.map (fun e => key reading e.1) = es.map fun e => some e.1 := by
  induction l generalizing es with
  | nil =>
      simp only [entries, Option.some.injEq] at h
      subst h
      rfl
  | cons e rest ih =>
      obtain ⟨k, v, es', hk, _, hes, rfl⟩ := entries_eq_some_cons h
      simp [hk, ih hes]

/-- The keys of a hash map read from a mapping are the keys of the mapping. -/
theorem mem_keys_of_hashMap [BEq α] [LawfulBEq α] {key : Decoder α} {value : Decoder β}
    {reading : Reading} {es : List (Document × Document)} {m : KeyedMap α β}
    (h : hashMap key value reading (.map es) = some m) (k : α) :
    k ∈ m.keys ↔ ∃ e ∈ es, key reading e.1 = some k := by
  simp only [hashMap, Option.map_eq_some_iff] at h
  obtain ⟨l, hl, rfl⟩ := h
  rw [KeyedMap.mem_keys_ofList]
  have hkeys := entries_keys hl
  have hmem : some k ∈ es.map (fun e => key reading e.1) ↔ some k ∈ l.map fun e => some e.1 := by
    rw [hkeys]
  simpa [List.mem_map] using hmem.symm

/-- Every key of a hash map read from a mapping was read by the key decoder. -/
theorem exists_of_mem_hashMap_keys [BEq α] {key : Decoder α} {value : Decoder β}
    {reading : Reading} {d : Document} {m : KeyedMap α β}
    (h : hashMap key value reading d = some m) {k : α} (hk : k ∈ m.keys) :
    ∃ d', key reading d' = some k := by
  cases d with
  | scalar => simp [hashMap] at h
  | seq => simp [hashMap] at h
  | map es =>
      simp only [hashMap, Option.map_eq_some_iff] at h
      obtain ⟨l, hl, rfl⟩ := h
      obtain ⟨e, he, rfl⟩ := KeyedMap.exists_mem_of_mem_keys_ofList hk
      have hmem : some e.1 ∈ es.map fun e => key reading e.1 := by
        rw [entries_keys hl]
        exact List.mem_map.mpr ⟨e, he, rfl⟩
      obtain ⟨e', _, hkey⟩ := List.mem_map.mp hmem
      exact ⟨e'.1, hkey⟩

theorem option_eq_some_some {item : Decoder α} {reading : Reading} {d : Document} {a : α}
    (h : option item reading d = some (some a)) : item reading d = some a := by
  unfold option at h
  split at h
  · simp at h
  · simpa using h

end Facts

end Npnpm.Serde
