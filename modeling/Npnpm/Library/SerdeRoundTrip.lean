import Mathlib.Data.List.Nodup
import Npnpm.Library.Serde

/-!
# Documents that are read back

A type is written by an encoder and read by a decoder. Each rule below says of
one way to build encoders that what it writes is read back, given that the parts
are: scalars, lists, hash maps, and structures of named fields.

## Implementation notes

A written value must not look like null, or an optional field would lose it, so
`ReadsBack` says both. `Faithful` says that a decoder returns only values that
are read back: it is what a value that was once read knows about itself.
-/

namespace Npnpm.Serde

open Npnpm

section Encoders

variable {α β : Type*}

abbrev Encoder (α : Type*) := α → Document

/-- An absent value whose field is not skipped. -/
def Document.null : Document := .scalar "null".toList .null true

def Document.isNull : Document → Bool
  | .scalar _ .null _ => true
  | _ => false

def encodeBoolean : Encoder Bool := fun b =>
  .scalar (if b then "true".toList else "false".toList) (.bool b) true

def encodeOption (item : Encoder α) : Encoder (Option α) := fun a => a.elim .null item

def encodeList (item : Encoder α) : Encoder (List α) := fun l => .seq (l.map item)

def encodeMap [BEq α] (key : Encoder α) (value : Encoder β) : Encoder (KeyedMap α β) :=
  fun m => .map (m.entries.map fun e => (key e.1, value e.2))

/-- The fields that are not skipped. -/
def present (fields : List (Text × Option Document)) : List (Text × Document) :=
  fields.filterMap fun f => f.2.map fun d => (f.1, d)

def keyed (fields : List (Text × Document)) : List (Document × Document) :=
  fields.map fun f => (.str f.1, f.2)

/-- A structure is written as the mapping of its fields. -/
def encodeFields (fields : List (Text × Option Document)) : Document :=
  .map (keyed (present fields))

end Encoders

section ReadsBack

variable {α β : Type*}

/-- The value is read back from what it is written as, which is not null. -/
structure ReadsBack (decode : Decoder α) (encode : Encoder α) (a : α) : Prop where
  decode_encode : ∀ reading, decode reading (encode a) = some a
  notNull : (encode a).isNull = false

/-- Every value that the decoder returns is read back. -/
def Faithful (decode : Decoder α) (encode : Encoder α) : Prop :=
  ∀ reading d a, decode reading d = some a → ReadsBack decode encode a

/-- A reading goes on with what its next part returns. -/
theorem read_next {β : Type*} {part : Option α} {a : α} (h : part = some a) {rest : α → Option β}
    {b : Option β} (hrest : rest a = b) : part.bind rest = b := by
  rw [h]
  exact hrest

theorem option_encode {decode : Decoder α} {encode : Encoder α} {a : α}
    (h : ReadsBack decode encode a) (reading : Reading) :
    option decode reading (encode a) = some (some a) := by
  have hnull := h.notNull
  unfold option
  split
  · rename_i hd
    rw [hd] at hnull
    cases hnull
  · rw [h.decode_encode]
    rfl

theorem option_encodeOption {decode : Decoder α} {encode : Encoder α} {a : Option α}
    (h : ∀ x, a = some x → ReadsBack decode encode x) (reading : Reading) :
    option decode reading (encodeOption encode a) = some a := by
  cases a with
  | none => rfl
  | some x => exact option_encode (h x rfl) reading

theorem exists_of_untagged {variants : List (Decoder α)} {reading : Reading} {d : Document} {a : α}
    (h : untagged variants reading d = some a) :
    ∃ variant ∈ variants, variant .buffered d = some a :=
  List.exists_of_findSome?_eq_some h

theorem readsBack_string (s : Text) : ReadsBack string Document.str s where
  decode_encode reading := by cases reading <;> rfl
  notNull := rfl

theorem readsBack_boolean (b : Bool) : ReadsBack boolean encodeBoolean b where
  decode_encode _ := rfl
  notNull := rfl

/-- A text that parses is read back when what it is written as parses to it. -/
theorem readsBack_tryFromStr {E : Type*} {parse : Text → Except E α} {display : α → Text} {a : α}
    (h : parse (display a) = .ok a) :
    ReadsBack (tryFromStr parse) (fun a => .str (display a)) a where
  decode_encode reading := by
    have hborrowed : borrowedStr reading (.str (display a)) = some (display a) := by
      cases reading <;> rfl
    simp only [tryFromStr, hborrowed, Option.bind_some, h]
    rfl
  notNull := rfl

theorem tryFromStr_eq_some {E : Type*} {parse : Text → Except E α} {reading : Reading}
    {d : Document} {a : α} (h : tryFromStr parse reading d = some a) :
    ∃ text, borrowedStr reading d = some text ∧ parse text = .ok a := by
  obtain ⟨text, htext, hparse⟩ := Option.bind_eq_some_iff.mp h
  refine ⟨text, htext, ?_⟩
  cases hp : parse text with
  | error e =>
      rw [hp] at hparse
      cases hparse
  | ok a' =>
      rw [hp] at hparse
      rw [Option.some.inj hparse]

theorem faithful_tryFromStr {E : Type*} {parse : Text → Except E α} {display : α → Text}
    (h : ∀ s a, parse s = .ok a → parse (display a) = .ok a) :
    Faithful (tryFromStr parse) fun a => .str (display a) := by
  intro reading d a hread
  obtain ⟨text, -, hparse⟩ := tryFromStr_eq_some hread
  exact readsBack_tryFromStr (h text a hparse)

theorem readsBack_list {decode : Decoder α} {encode : Encoder α} {l : List α}
    (h : ∀ a ∈ l, ReadsBack decode encode a) : ReadsBack (list decode) (encodeList encode) l where
  decode_encode reading := by
    change (l.map encode).mapM (decode reading) = some l
    induction l with
    | nil => rfl
    | cons a rest ih =>
        obtain ⟨ha, hrest⟩ := List.forall_mem_cons.mp h
        rw [List.map_cons, List.mapM_cons, ha.decode_encode, ih hrest]
        rfl
  notNull := rfl

theorem readsBack_strings (l : List Text) : ReadsBack (list string) (encodeList Document.str) l :=
  readsBack_list fun s _ => readsBack_string s

end ReadsBack

section Maps

variable {α β : Type*} [BEq α] {key : Decoder α} {value : Decoder β} {ekey : Encoder α}
  {evalue : Encoder β}

omit [BEq α] in
theorem entries_encode {l : List (α × β)}
    (h : ∀ e ∈ l, ReadsBack key ekey e.1 ∧ ReadsBack value evalue e.2) (reading : Reading) :
    entries key value reading (l.map fun e => (ekey e.1, evalue e.2)) = some l := by
  induction l with
  | nil => rfl
  | cons e rest ih =>
      obtain ⟨⟨hkey, hvalue⟩, hrest⟩ := List.forall_mem_cons.mp h
      rw [List.map_cons, entries, hkey.decode_encode, Option.bind_some, hvalue.decode_encode,
        Option.bind_some, ih hrest]
      rfl

/-- The entries of a map keep their keys apart, so none is lost on the way back. -/
theorem readsBack_hashMap {m : KeyedMap α β}
    (h : m.Forall (ReadsBack key ekey) (ReadsBack value evalue)) :
    ReadsBack (hashMap key value) (encodeMap ekey evalue) m where
  decode_encode reading := by
    rw [encodeMap, hashMap, entries_encode h, Option.map_some, KeyedMap.ofList_entries]
  notNull := rfl

theorem readsBack_texts (m : KeyedMap Text Text) :
    ReadsBack (hashMap string string) (encodeMap Document.str Document.str) m :=
  readsBack_hashMap fun e _ => ⟨readsBack_string e.1, readsBack_string e.2⟩

omit [BEq α] in
theorem forall_entries {p : α → Prop} {q : β → Prop}
    (hkey : ∀ reading d k, key reading d = some k → p k)
    (hvalue : ∀ reading d v, value reading d = some v → q v)
    {reading : Reading} {es : List (Document × Document)} {l : List (α × β)}
    (h : entries key value reading es = some l) : ∀ e ∈ l, p e.1 ∧ q e.2 := by
  induction es generalizing l with
  | nil =>
      cases h
      simp
  | cons e rest ih =>
      obtain ⟨k, v, l, hk, hv, hl, rfl⟩ := entries_eq_some_cons h
      exact List.forall_mem_cons.mpr ⟨⟨hkey _ _ _ hk, hvalue _ _ _ hv⟩, ih hl⟩

/-- What holds of all keys and values that are read holds of a map that is read. -/
theorem forall_hashMap {p : α → Prop} {q : β → Prop}
    (hkey : ∀ reading d k, key reading d = some k → p k)
    (hvalue : ∀ reading d v, value reading d = some v → q v)
    {reading : Reading} {d : Document} {m : KeyedMap α β}
    (h : hashMap key value reading d = some m) : m.Forall p q := by
  cases d with
  | scalar => cases h
  | seq => cases h
  | map es =>
      obtain ⟨l, hl, rfl⟩ := Option.map_eq_some_iff.mp h
      exact KeyedMap.forall_ofList (forall_entries hkey hvalue hl)

end Maps

section Fields

variable {α : Type*} {decode : Decoder α} {encode : Encoder α}

theorem mem_present {fields : List (Text × Option Document)} {f : Text × Document} :
    f ∈ present fields ↔ (f.1, some f.2) ∈ fields := by
  obtain ⟨name, d⟩ := f
  simp only [present, List.mem_filterMap, Option.map_eq_some_iff, Prod.exists, Prod.mk.injEq]
  constructor
  · rintro ⟨name, _, hmem, d, rfl, rfl, rfl⟩
    exact hmem
  · exact fun hmem => ⟨name, some d, hmem, d, rfl, rfl, rfl⟩

theorem present_append (fields fields' : List (Text × Option Document)) :
    present (fields ++ fields') = present fields ++ present fields' :=
  List.filterMap_append

theorem filter_present_of_mem {names : List Text} {l : List (Text × Option Document)}
    (h : ∀ name ∈ l.map Prod.fst, name ∈ names) :
    ((present l).filter fun f => f.1 ∈ names) = present l ∧
      ((present l).filter fun f => f.1 ∉ names) = [] := by
  have hmem : ∀ f ∈ present l, f.1 ∈ names := fun f hf =>
    h _ (List.mem_map.mpr ⟨_, mem_present.mp hf, rfl⟩)
  exact ⟨List.filter_eq_self.mpr fun f hf => by simp [hmem f hf],
    List.filter_eq_nil_iff.mpr fun f hf => by simp [hmem f hf]⟩

theorem filter_present_of_not_mem {names : List Text} {l : List (Text × Option Document)}
    (h : ∀ name ∈ l.map Prod.fst, name ∉ names) :
    ((present l).filter fun f => f.1 ∈ names) = [] ∧
      ((present l).filter fun f => f.1 ∉ names) = present l := by
  have hmem : ∀ f ∈ present l, f.1 ∉ names := fun f hf =>
    h _ (List.mem_map.mpr ⟨_, mem_present.mp hf, rfl⟩)
  exact ⟨List.filter_eq_nil_iff.mpr fun f hf => by simp [hmem f hf],
    List.filter_eq_self.mpr fun f hf => by simp [hmem f hf]⟩

theorem map_fst_present_sublist (fields : List (Text × Option Document)) :
    ((present fields).map Prod.fst).Sublist (fields.map Prod.fst) := by
  induction fields with
  | nil => exact .slnil
  | cons f rest ih =>
      obtain ⟨name, _ | d⟩ := f
      · exact ih.cons _
      · exact ih.cons_cons _

/-- A field is found under its name, or missing when it is skipped. -/
theorem lookup_present {fields : List (Text × Option Document)}
    (hnodup : (fields.map Prod.fst).Nodup) {name : Text} {d : Option Document}
    (h : (name, d) ∈ fields) : (present fields).lookup name = d := by
  have hfind : ∀ l : List (Text × Document), (l.map Prod.fst).Nodup →
      ∀ d, (name, d) ∈ l → l.lookup name = some d := by
    intro l hl d hd
    induction l with
    | nil => cases hd
    | cons f rest ih =>
        obtain ⟨hhead, htail⟩ := List.nodup_cons.mp hl
        rcases List.mem_cons.mp hd with rfl | hd
        · exact List.lookup_cons_self
        · have hne : (name == f.1) = false := by
            rw [beq_eq_false_iff_ne]
            rintro rfl
            exact hhead (List.mem_map.mpr ⟨_, hd, rfl⟩)
          rw [List.lookup_cons, hne]
          exact ih htail hd
  have hsublist := map_fst_present_sublist fields
  cases d with
  | some d => exact hfind _ (hsublist.nodup hnodup) d (mem_present.mpr h)
  | none =>
      rw [List.lookup_eq_none_iff]
      rintro f hf
      rw [bne_iff_ne]
      rintro rfl
      have hsome := mem_present.mp hf
      have heq := List.inj_on_of_nodup_map hnodup h hsome rfl
      simp at heq

theorem identify_str (names : List Text) (reading : Reading) (name : Text) :
    identify names reading (.str name) = some (if name ∈ names then some name else none) := by
  cases reading <;> rfl

/-- The known fields of a written mapping, in their order. -/
theorem mapFields_keyed {names : List Text} {denyUnknown : Bool} {l : List (Text × Document)}
    (hnodup : (l.map Prod.fst).Nodup) (hknown : denyUnknown = true → ∀ f ∈ l, f.1 ∈ names)
    (reading : Reading) :
    mapFields names denyUnknown reading (keyed l) =
      some (l.filter fun f => f.1 ∈ names) := by
  induction l with
  | nil => rfl
  | cons f rest ih =>
      obtain ⟨hhead, htail⟩ := List.nodup_cons.mp hnodup
      have hrest := ih htail fun hdeny => (List.forall_mem_cons.mp (hknown hdeny)).2
      change mapFields names denyUnknown reading ((.str f.1, f.2) :: keyed rest) = _
      rw [mapFields, identify_str, Option.bind_some, hrest, Option.bind_some]
      by_cases hf : f.1 ∈ names
      · have hfree : (rest.filter fun g => g.1 ∈ names).any (fun g => g.1 = f.1) = false := by
          rw [List.any_eq_false]
          intro g hg
          rw [decide_eq_true_eq]
          rintro heq
          exact hhead (List.mem_map.mpr ⟨g, (List.mem_filter.mp hg).1, heq⟩)
        simp only [if_pos hf, hfree, List.filter_cons, decide_eq_true_eq, Bool.false_eq_true,
          if_false]
      · have hdeny : denyUnknown = false := by
          rw [Bool.eq_false_iff]
          exact fun hdeny => hf (hknown hdeny f List.mem_cons_self)
        simp only [if_neg hf, hdeny, List.filter_cons, decide_eq_true_eq, Bool.false_eq_true,
          if_false]

/-- A structure whose fields are written under its names has them all back. -/
theorem fields_encodeFields {names : List Text} {l : List (Text × Option Document)}
    (hnames : l.map Prod.fst = names) (hnodup : names.Nodup) (denyUnknown : Bool)
    (reading : Reading) :
    fields names denyUnknown reading (encodeFields l) = some (present l) := by
  have hknown : ∀ f ∈ present l, f.1 ∈ names := fun f hf =>
    hnames ▸ List.mem_map.mpr ⟨_, mem_present.mp hf, rfl⟩
  rw [encodeFields, fields, mapFields_keyed ((map_fst_present_sublist l).nodup (hnames ▸ hnodup))
    (fun _ => hknown), List.filter_eq_self.mpr]
  exact fun f hf => decide_eq_true (hknown f hf)

/-- A structure that denies unknown fields rejects a mapping with another field. -/
theorem fields_encodeFields_unknown {names : List Text} {l : List (Text × Option Document)}
    {name : Text} {d : Document} (hmem : (name, some d) ∈ l) (hunknown : name ∉ names)
    (reading : Reading) : fields names true reading (encodeFields l) = none := by
  have hkeyed : ∀ l : List (Text × Document), (name, d) ∈ l →
      mapFields names true reading (keyed l) = none := by
    intro l hd
    induction l with
    | nil => cases hd
    | cons f rest ih =>
        change mapFields names true reading ((.str f.1, f.2) :: keyed rest) = none
        rw [mapFields, identify_str, Option.bind_some]
        rcases List.mem_cons.mp hd with rfl | hd
        · rw [if_neg hunknown]
          cases mapFields names true reading (keyed rest) <;> rfl
        · rw [ih hd]
          rfl
  exact hkeyed _ (mem_present.mpr hmem)

/-- The tag of a written variant, and the fields after it. -/
theorem splitTag_encodeFields {tag : Text} {l : List (Text × Option Document)}
    (hfree : tag ∉ l.map Prod.fst) (d : Document) :
    splitTag tag (encodeFields ((tag, some d) :: l)) = some (d, encodeFields l) := by
  have hother : ∀ e ∈ keyed (present l), e.1.sameKey (.str tag) = false := by
    intro e he
    obtain ⟨f, hf, rfl⟩ := List.mem_map.mp he
    have hne : f.1 ≠ tag := fun heq =>
      hfree (heq ▸ List.mem_map.mpr ⟨_, mem_present.mp hf, rfl⟩)
    simp [Document.sameKey, Document.str, hne]
  have hnone : (keyed (present l)).filter (fun e => e.1.sameKey (.str tag)) = [] :=
    List.filter_eq_nil_iff.mpr fun e he => by simp [hother e he]
  have hall : (keyed (present l)).filter (fun e => !e.1.sameKey (.str tag)) =
      keyed (present l) := List.filter_eq_self.mpr fun e he => by simp [hother e he]
  have htag : (Document.str tag).sameKey (.str tag) = true := by
    simp [Document.sameKey, Document.str]
  have hkeyed : encodeFields ((tag, some d) :: l) = .map ((.str tag, d) :: keyed (present l)) :=
    rfl
  rw [hkeyed]
  simp only [splitTag, List.filter_cons, htag, hnone, hall, if_true, Bool.not_true,
    Bool.false_eq_true, if_false, encodeFields]

/-- The keys that are not among the names are left for a flattened field. -/
theorem otherEntries_keyed (names : List Text) (l : List (Text × Document)) :
    otherEntries names (keyed l) = keyed (l.filter fun f => f.1 ∉ names) := by
  induction l with
  | nil => rfl
  | cons f rest ih =>
      change otherEntries names ((.str f.1, f.2) :: keyed rest) = _
      rw [Document.str, otherEntries, ih]
      by_cases hf : f.1 ∈ names
      · simp [hf]
      · simp [hf, keyed, Document.str]

theorem requiredField_present {l : List (Text × Option Document)}
    (hnodup : (l.map Prod.fst).Nodup) {a : α} (ha : ReadsBack decode encode a) {name : Text}
    (hmem : (name, some (encode a)) ∈ l) (reading : Reading) :
    requiredField decode reading (present l) name = some a := by
  rw [requiredField, lookup_present hnodup hmem, Option.bind_some, ha.decode_encode]

/-- A field that is skipped when it is `none`. -/
theorem optionalField_present {l : List (Text × Option Document)}
    (hnodup : (l.map Prod.fst).Nodup) {a : Option α}
    (ha : ∀ x, a = some x → ReadsBack decode encode x) {name : Text}
    (hmem : (name, a.map encode) ∈ l) (reading : Reading) :
    optionalField decode reading (present l) name = some a := by
  rw [optionalField, lookup_present hnodup hmem]
  cases a with
  | none => rfl
  | some x => exact option_encode (ha x rfl) reading

/-- A field that is written as null when it is `none`. -/
theorem optionalField_present_null {l : List (Text × Option Document)}
    (hnodup : (l.map Prod.fst).Nodup) {a : Option α}
    (ha : ∀ x, a = some x → ReadsBack decode encode x) {name : Text}
    (hmem : (name, some (encodeOption encode a)) ∈ l) (reading : Reading) :
    optionalField decode reading (present l) name = some a := by
  rw [optionalField, lookup_present hnodup hmem]
  exact option_encodeOption ha reading

theorem readsBack_of_requiredField (h : Faithful decode encode) {reading : Reading}
    {known : List (Text × Document)} {name : Text} {a : α}
    (ha : requiredField decode reading known name = some a) : ReadsBack decode encode a := by
  obtain ⟨d, -, hd⟩ := Option.bind_eq_some_iff.mp ha
  exact h reading d a hd

/-- The document that the value of an optional field was read from. -/
theorem exists_of_optionalField {reading : Reading} {known : List (Text × Document)} {name : Text}
    {a : α} (ha : optionalField decode reading known name = some (some a)) :
    ∃ d, d.isNull = false ∧ decode reading d = some a := by
  unfold optionalField at ha
  cases hlookup : known.lookup name with
  | none =>
      rw [hlookup] at ha
      cases ha
  | some d =>
      rw [hlookup] at ha
      refine ⟨d, ?_, option_eq_some_some ha⟩
      cases hnull : d.isNull with
      | false => rfl
      | true =>
          unfold Document.isNull at hnull
          split at hnull
          · cases ha
          · cases hnull

theorem readsBack_of_optionalField (h : Faithful decode encode) {reading : Reading}
    {known : List (Text × Document)} {name : Text} {a : Option α}
    (ha : optionalField decode reading known name = some a) :
    ∀ x, a = some x → ReadsBack decode encode x := by
  rintro x rfl
  obtain ⟨d, -, hd⟩ := exists_of_optionalField ha
  exact h reading d x hd

/-- An untyped value is written as it is. -/
theorem readsBack_value_of_optionalField {reading : Reading} {known : List (Text × Document)}
    {name : Text} {a : Option Document}
    (ha : optionalField value reading known name = some a) :
    ∀ x, a = some x → ReadsBack value id x := by
  rintro x rfl
  obtain ⟨d, hnull, hd⟩ := exists_of_optionalField ha
  unfold value at hd
  split at hd
  · rename_i hdistinct
    cases hd
    exact ⟨fun _ => if_pos hdistinct, hnull⟩
  · cases hd

end Fields

end Npnpm.Serde
