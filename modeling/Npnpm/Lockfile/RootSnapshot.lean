import Npnpm.Lockfile.CoreVersion

/-!
# Importers of a lockfile

A document with the key `importers` is meant as a monorepo. The monorepo variant
of the root snapshot is tried first and rejects the document when anything is
wrong with it; the single-project variant is tried next and does not look at the
importers at all.
-/

namespace Npnpm

open Npnpm.Serde

section Variants

variable {V : Type} [NodeSemver V]

theorem RootProjectSnapshot.decode_of_multi {reading : Reading} {d : Document}
    {m : MultiProjectSnapshot V} (h : MultiProjectSnapshot.decode .buffered d = some m) :
    RootProjectSnapshot.decode reading d = some (.multi m) := by
  simp [RootProjectSnapshot.decode, untagged, h]

/-- What the first variant rejects is left to the second. -/
theorem RootProjectSnapshot.decode_of_not_multi {reading : Reading} {d : Document}
    (h : MultiProjectSnapshot.decode (V := V) .buffered d = none) :
    RootProjectSnapshot.decode (V := V) reading d =
      (ProjectSnapshot.decode .buffered d).map RootProjectSnapshot.single := by
  cases hp : ProjectSnapshot.decode (V := V) .buffered d <;>
    simp [RootProjectSnapshot.decode, untagged, h, hp]

/-- The monorepo variant reads exactly the mappings whose only entry is a
readable `importers`. -/
theorem MultiProjectSnapshot.decode_eq_some_iff {es : List (Document × Document)}
    (hkeys : ∀ e ∈ es, ∃ text borrowed, e.1 = .scalar text .string borrowed)
    (m : MultiProjectSnapshot V) :
    MultiProjectSnapshot.decode .buffered (.map es) = some m ↔
      ∃ borrowed v, es = [(.scalar importersField .string borrowed, v)] ∧
        hashMap string ProjectSnapshot.decode .buffered v = some m.importers := by
  have hfields := mapFields_single_eq_some_iff importersField hkeys
  obtain ⟨importers⟩ := m
  cases hk : mapFields [importersField] true .buffered es with
  | none =>
      have hne : ∀ borrowed v, es ≠ [(.scalar importersField .string borrowed, v)] := by
        intro borrowed v he
        have h := (hfields _).mpr (Or.inr ⟨borrowed, v, he, rfl⟩)
        rw [hk] at h
        cases h
      simp [MultiProjectSnapshot.decode, fields, hk, hne]
  | some known =>
      rcases (hfields known).mp hk with ⟨rfl, rfl⟩ | ⟨borrowed, v, rfl, rfl⟩
      · simp [MultiProjectSnapshot.decode, fields, hk, requiredField]
      · cases hv : hashMap string (ProjectSnapshot.decode (V := V)) .buffered v <;>
          simp [MultiProjectSnapshot.decode, fields, hk, requiredField, hv]

end Variants

section Importers

variable {V : Type} [NodeSemver V]

/-- An importer named by a top-level `importers` mapping. -/
def IsImporter (top : List (Document × Document)) (name : Text) : Prop :=
  ∃ e ∈ top, e.1.keyText = some importersField ∧
    ∃ es, e.2 = .map es ∧ ∃ d ∈ es, d.1.keyText = some name

variable (V) in
/-- Among the keys no field claims, `importers` stands alone, and each importer
is named by a string and can be read as a project. -/
def ImportersReadable (top : List (Document × Document)) : Prop :=
  ∃ borrowed es,
    otherEntries claimedFields top = [(.scalar importersField .string borrowed, .map es)] ∧
      ∀ e ∈ es, (string .buffered e.1).isSome ∧
        (ProjectSnapshot.decode (V := V) .buffered e.2).isSome

theorem multi_isSome_iff_importersReadable (top : List (Document × Document)) :
    (MultiProjectSnapshot.decode (V := V) .buffered
      (.map (otherEntries claimedFields top))).isSome ↔ ImportersReadable V top := by
  rw [Option.isSome_iff_exists]
  constructor
  · rintro ⟨m, hm⟩
    obtain ⟨borrowed, v, hes, hv⟩ :=
      (MultiProjectSnapshot.decode_eq_some_iff otherEntries_keys m).mp hm
    cases v with
    | scalar => simp [hashMap] at hv
    | seq => simp [hashMap] at hv
    | map es =>
        refine ⟨borrowed, es, hes, (entries_isSome_iff _ _ _ _).mp ?_⟩
        simp only [hashMap, Option.map_eq_some_iff] at hv
        obtain ⟨l, hl, -⟩ := hv
        rw [hl]
        rfl
  · rintro ⟨borrowed, es, hes, hread⟩
    obtain ⟨l, hl⟩ := Option.isSome_iff_exists.mp ((entries_isSome_iff _ _ _ _).mpr hread)
    exact ⟨⟨KeyedMap.ofList l⟩, (MultiProjectSnapshot.decode_eq_some_iff otherEntries_keys _).mpr
      ⟨borrowed, .map es, hes, by simp [hashMap, hl]⟩⟩

/-- The importers the monorepo variant reads are those the document names. -/
theorem mem_importers_iff {top : List (Document × Document)} {m : MultiProjectSnapshot V}
    (h : MultiProjectSnapshot.decode .buffered
      (.map (otherEntries claimedFields top)) = some m) (name : Text) :
    name ∈ m.importers.keys ↔ IsImporter top name := by
  obtain ⟨borrowed, v, hes, hv⟩ :=
    (MultiProjectSnapshot.decode_eq_some_iff otherEntries_keys m).mp h
  have hunclaimed : importersField ∉ claimedFields := by decide
  cases v with
  | scalar => simp [hashMap] at hv
  | seq => simp [hashMap] at hv
  | map es =>
      rw [mem_keys_of_hashMap hv]
      constructor
      · rintro ⟨d, hd, hname⟩
        have hin : (.scalar importersField .string borrowed, .map es) ∈
            otherEntries claimedFields top := by
          rw [hes]
          exact List.mem_singleton_self _
        obtain ⟨text, kind, borrowed', hkey, _, hmem⟩ := mem_otherEntries hin
        obtain ⟨rfl, -⟩ : importersField = text ∧ borrowed = borrowed' := by simpa using hkey
        exact ⟨_, hmem, rfl, es, rfl, d, hd, keyText_of_string hname⟩
      · rintro ⟨e, he, hkey, es', hval, d, hd, hname⟩
        obtain ⟨key, w⟩ := e
        cases key with
        | seq => simp [Document.keyText] at hkey
        | map => simp [Document.keyText] at hkey
        | scalar text kind b =>
            simp only [Document.keyText, Option.some.injEq] at hkey hval
            subst hkey hval
            have hin := mem_otherEntries_of_mem he hunclaimed
            rw [hes, List.mem_singleton, Prod.mk.injEq] at hin
            obtain ⟨-, hes'⟩ := hin
            cases hes'
            refine ⟨d, hd, ?_⟩
            simp only [hashMap, Option.map_eq_some_iff] at hv
            obtain ⟨l, hl, -⟩ := hv
            have hstr := ((entries_isSome_iff _ _ _ _).mp (by rw [hl]; rfl) d hd).1
            obtain ⟨text, htext⟩ := Option.isSome_iff_exists.mp hstr
            rw [htext, ← hname, keyText_of_string htext]

end Importers

section Lockfile

variable {V I : Type} [NodeSemver V] [BEq V] [SsriParse I]

/-- The root snapshot is the monorepo one and has one entry for each importer. -/
def KeepsImporters (top : List (Document × Document)) (lockfile : Lockfile V I) : Prop :=
  ∃ m, lockfile.projectSnapshot = .multi m ∧ ∀ name, name ∈ m.importers.keys ↔ IsImporter top name

theorem Lockfile.deserialize_eq_some_iff (top : List (Document × Document))
    (lockfile : Lockfile V I) :
    Lockfile.deserialize (.map top) = some lockfile ↔
      ClaimedFields.decode top = some ⟨lockfile.lockfileVersion, lockfile.settings,
        lockfile.neverBuiltDependencies, lockfile.overrides, lockfile.packages⟩ ∧
      RootProjectSnapshot.decode .buffered (.map (otherEntries claimedFields top)) =
        some lockfile.projectSnapshot := by
  obtain ⟨version, settings, neverBuilt, overrides, snapshot, packages⟩ := lockfile
  simp only [Lockfile.deserialize, Option.bind_eq_some_iff, Option.map_eq_some_iff]
  constructor
  · rintro ⟨fields, hfields, root, hroot, heq⟩
    cases heq
    exact ⟨hfields, hroot⟩
  · rintro ⟨hfields, hroot⟩
    exact ⟨_, hfields, _, hroot, rfl⟩

variable (V I) in
/-- A document is rejected or keeps its importers exactly when one of the
claimed fields is unreadable, when `importers` is the only other key and
readable throughout, or when the other keys are no single project either. -/
theorem Lockfile.deserialize_importers_iff (top : List (Document × Document)) :
    (∀ lockfile : Lockfile V I,
      Lockfile.deserialize (.map top) = some lockfile → KeepsImporters top lockfile) ↔
      ClaimedFields.decode (V := V) (I := I) top = none ∨ ImportersReadable V top ∨
        ProjectSnapshot.decode (V := V) .buffered
          (.map (otherEntries claimedFields top)) = none := by
  have hmulti := multi_isSome_iff_importersReadable (V := V) top
  constructor
  · intro hkeep
    by_contra hnot
    simp only [not_or, ← hmulti, Bool.not_eq_true, Option.isSome_eq_false_iff,
      Option.isNone_iff_eq_none] at hnot
    obtain ⟨hfields, hnone, hproject⟩ := hnot
    obtain ⟨fields, hfields⟩ := Option.ne_none_iff_exists'.mp hfields
    obtain ⟨project, hproject⟩ := Option.ne_none_iff_exists'.mp hproject
    have hroot : RootProjectSnapshot.decode .buffered
        (.map (otherEntries claimedFields top)) = some (.single project) := by
      rw [RootProjectSnapshot.decode_of_not_multi hnone, hproject]
      rfl
    obtain ⟨m, hm, -⟩ := hkeep
      ⟨fields.lockfileVersion, fields.settings, fields.neverBuiltDependencies, fields.overrides,
        .single project, fields.packages⟩
      ((Lockfile.deserialize_eq_some_iff top _).mpr ⟨hfields, hroot⟩)
    cases hm
  · intro hcases lockfile hload
    obtain ⟨hfields, hroot⟩ := (Lockfile.deserialize_eq_some_iff top lockfile).mp hload
    cases hm : MultiProjectSnapshot.decode (V := V) .buffered
        (.map (otherEntries claimedFields top)) with
    | some m =>
        rw [RootProjectSnapshot.decode_of_multi hm, Option.some.injEq] at hroot
        exact ⟨m, hroot.symm, mem_importers_iff hm⟩
    | none =>
        rw [RootProjectSnapshot.decode_of_not_multi hm] at hroot
        rcases hcases with h | h | h
        · rw [hfields] at h
          cases h
        · rw [← hmulti, hm] at h
          cases h
        · rw [h] at hroot
          cases hroot

/-- The document `lockfileVersion: '6.0'`, `importers: {}` and one more key. -/
def patchedMonorepo : List (Document × Document) :=
  [(.str "lockfileVersion".toList, .str "6.0".toList),
    (.str importersField, .map [(.str ".".toList, .map [])]),
    (.str "patchedDependencies".toList, .map [])]

/-- One key besides `importers` and the importers are gone. -/
theorem Lockfile.deserialize_patchedMonorepo :
    ∃ lockfile : Lockfile CoreVersion HashIntegrity,
      Lockfile.deserialize (.map patchedMonorepo) = some lockfile ∧
        (∃ project, lockfile.projectSnapshot = .single project) ∧
        IsImporter patchedMonorepo ".".toList ∧ ¬ KeepsImporters patchedMonorepo lockfile := by
  refine ⟨⟨⟨⟨6, 0⟩, rfl⟩, none, none, none, .single ⟨none, none, none, none, none, none⟩, none⟩,
    rfl, ⟨_, rfl⟩, ?_, ?_⟩
  · exact ⟨_, List.mem_cons_of_mem _ (List.mem_cons_self ..), rfl, _, rfl, _,
      List.mem_singleton_self _, rfl⟩
  · rintro ⟨m, hm, -⟩
    cases hm

end Lockfile

end Npnpm
