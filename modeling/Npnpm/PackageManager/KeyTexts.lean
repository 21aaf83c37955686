import Mathlib.Data.List.Induction
import Npnpm.PackageManager.FetchReach
import Npnpm.PackageManager.SavedLockfile
import Npnpm.Registry.CoreRange

/-!
# The texts of lockfile keys

A key whose version part is canonical is displayed as the text it was parsed from, and what
was parsed is displayed as a text that parses to it. So `fetch` finds a package by the text
of its key.
-/

namespace Npnpm

open Npnpm.Text

section Canonical

/-- The version of `{version}({peers})`. -/
def PkgVerPeer.versionPart (value : Text) : Text :=
  match breakAt '(' value with
  | none => value
  | some (head, _) => head

/-- The version of `{name}@{version}({peers})`. -/
def PkgNameVerPeer.versionPart (value : Text) : Text :=
  match PkgNameSuffix.splitName (E := ParsePkgVerPeerError) value with
  | .error _ => []
  | .ok (_, suffix) => PkgVerPeer.versionPart suffix

/-- The version of `{registry}/{name}@{version}({peers})`. -/
def DependencyPath.versionPart (s : Text) : Text :=
  match splitOnce '/' s with
  | none => []
  | some (_, packageSpecifier) => PkgNameVerPeer.versionPart packageSpecifier

variable {V : Type} [NodeSemver V]

/-- The text in which its version is displayed. -/
def CanonicalVersion (V : Type) [NodeSemver V] (text : Text) : Prop :=
  ∃ v : V, NodeSemver.parse text = .ok v ∧ NodeSemver.display v = text

theorem CanonicalVersion.display {text : Text} (h : CanonicalVersion V text) {v : V}
    (hv : NodeSemver.parse text = .ok v) : NodeSemver.display v = text := by
  obtain ⟨w, hw, hdisplay⟩ := h
  rw [hv, Except.ok.injEq] at hw
  rw [hw, hdisplay]

theorem PkgVerPeer.fromStr_parts {value : Text} {v : PkgVerPeer V}
    (h : PkgVerPeer.fromStr value = .ok v) :
    NodeSemver.parse (PkgVerPeer.versionPart value) = .ok v.version ∧
      value = PkgVerPeer.versionPart value ++ v.peer := by
  obtain ⟨head, hparse, hvalue, hopen, hpeer⟩ := PkgVerPeer.fromStr_ok h
  have hpart : PkgVerPeer.versionPart value = head := by
    unfold PkgVerPeer.versionPart
    rcases hpeer with hnil | ⟨rest, hrest⟩
    · rw [hnil, List.append_nil] at hvalue
      rw [hvalue, (breakAt_eq_none_iff '(' head).mpr hopen]
    · rw [hvalue, hrest, breakAt_append '(' head rest hopen]
  rw [hpart]
  exact ⟨hparse, hvalue⟩

/-- A version is displayed as the text it was read from when its version part is
canonical. -/
theorem PkgVerPeer.display_of_canonical {value : Text} {v : PkgVerPeer V}
    (h : PkgVerPeer.fromStr value = .ok v)
    (hcanonical : CanonicalVersion V (PkgVerPeer.versionPart value)) : v.display = value := by
  obtain ⟨hparse, hvalue⟩ := PkgVerPeer.fromStr_parts h
  rw [PkgVerPeer.display, hcanonical.display hparse, ← hvalue]

theorem PkgNameVerPeer.fromStr_parts {value : Text} {v : PkgNameVerPeer V}
    (h : PkgNameVerPeer.fromStr value = .ok v) :
    ∃ suffix, PkgVerPeer.fromStr suffix = .ok v.suffix ∧
      value = v.name.display ++ '@' :: suffix ∧
      PkgNameVerPeer.versionPart value = PkgVerPeer.versionPart suffix := by
  obtain ⟨suffix, hsuffix, hvalue, hw, -⟩ := PkgNameSuffix.fromStr_ok h
  have hname := PkgNameSuffix.specifiable_of_fromStr h
  refine ⟨suffix, hsuffix, hvalue, ?_⟩
  rw [PkgNameVerPeer.versionPart, hvalue, PkgNameSuffix.splitName_append suffix
    (fun hnil => PkgName.display_ne hw hname.2 (Or.inl hnil)) (PkgName.display_of_noAt hname.1)]

theorem PkgNameVerPeer.display_of_canonical {value : Text} {v : PkgNameVerPeer V}
    (h : PkgNameVerPeer.fromStr value = .ok v)
    (hcanonical : CanonicalVersion V (PkgNameVerPeer.versionPart value)) : v.display = value := by
  obtain ⟨suffix, hsuffix, hvalue, hpart⟩ := PkgNameVerPeer.fromStr_parts h
  rw [hpart] at hcanonical
  rw [PkgNameVerPeer.display, PkgNameSuffix.display,
    PkgVerPeer.display_of_canonical hsuffix hcanonical, ← hvalue]

theorem DependencyPath.fromStr_parts {s : Text} {path : DependencyPath V}
    (h : DependencyPath.fromStr s = .ok path) :
    ∃ specifier, PkgNameVerPeer.fromStr specifier = .ok path.packageSpecifier ∧
      s = path.customRegistry.getD [] ++ '/' :: specifier ∧
      DependencyPath.versionPart s = PkgNameVerPeer.versionPart specifier := by
  unfold DependencyPath.fromStr at h
  unfold DependencyPath.versionPart
  cases hs : splitOnce '/' s with
  | none => simp [hs] at h
  | some p =>
      cases hp : PkgNameVerPeer.fromStr (V := V) p.2 with
      | error e => simp [hs, hp] at h
      | ok specifier =>
          simp only [hs, hp, Except.ok.injEq] at h
          subst h
          obtain ⟨-, htext⟩ := (splitOnce_eq_some_iff '/' s p.1 p.2).mp hs
          refine ⟨p.2, hp, ?_, rfl⟩
          by_cases hnil : p.1 = []
          · simp [htext, hnil]
          · simp [htext, hnil]

theorem DependencyPath.display_of_canonical {s : Text} {path : DependencyPath V}
    (h : DependencyPath.fromStr s = .ok path)
    (hcanonical : CanonicalVersion V (DependencyPath.versionPart s)) : path.display = s := by
  obtain ⟨specifier, hspecifier, hs, hpart⟩ := DependencyPath.fromStr_parts h
  rw [hpart] at hcanonical
  rw [DependencyPath.display, PkgNameVerPeer.display_of_canonical hspecifier hcanonical, ← hs]

end Canonical

section RoundTrips

/-- A reader and a writer of texts that undo each other, on canonical texts. -/
structure KeyRoundTrip {E D : Type} (fromStr : Text → Except E D) (display : D → Text)
    (canonical : Text → Prop) : Prop where
  display_fromStr : ∀ s d, fromStr s = .ok d → canonical s → display d = s
  fromStr_display : ∀ s d, fromStr s = .ok d → fromStr (display d) = .ok d
  distinct : ∀ s s' d d', fromStr s = .ok d → fromStr s' = .ok d' → canonical s →
    canonical s' → s ≠ s' → d ≠ d'

theorem KeyRoundTrip.mk' {E D : Type} {fromStr : Text → Except E D} {display : D → Text}
    {canonical : Text → Prop} (hdisplay : ∀ s d, fromStr s = .ok d → canonical s → display d = s)
    (hfromStr : ∀ s d, fromStr s = .ok d → fromStr (display d) = .ok d) :
    KeyRoundTrip fromStr display canonical := by
  refine ⟨hdisplay, hfromStr, fun s s' d d' hd hd' hs hs' hne heq => hne ?_⟩
  rw [← hdisplay s d hd hs, ← hdisplay s' d' hd' hs', heq]

variable {V : Type} [NodeSemver V] [PlainSemver V] [RoundTripSemver V]

theorem PkgVerPeer.keyRoundTrip :
    KeyRoundTrip (PkgVerPeer.fromStr (V := V)) PkgVerPeer.display
      fun s => CanonicalVersion V (PkgVerPeer.versionPart s) :=
  .mk' (fun _ _ => PkgVerPeer.display_of_canonical) fun _ _ => PkgVerPeer.fromStr_display

theorem PkgNameVerPeer.keyRoundTrip :
    KeyRoundTrip (PkgNameVerPeer.fromStr (V := V)) PkgNameVerPeer.display
      fun s => CanonicalVersion V (PkgNameVerPeer.versionPart s) := by
  refine .mk' (fun _ _ => PkgNameVerPeer.display_of_canonical) fun s d h => ?_
  obtain ⟨suffix, hsuffix, -, hw, -⟩ := PkgNameSuffix.fromStr_ok h
  exact PkgNameVerPeer.fromStr_display hw (PkgNameSuffix.specifiable_of_fromStr h) hsuffix

theorem DependencyPath.keyRoundTrip :
    KeyRoundTrip (DependencyPath.fromStr (V := V)) DependencyPath.display
      fun s => CanonicalVersion V (DependencyPath.versionPart s) := by
  refine .mk' (fun _ _ => DependencyPath.display_of_canonical) fun s d h => ?_
  exact (DependencyPath.fromStr_display_iff (DependencyPath.fromStr_ok h).1).mpr
    (DependencyPath.specifiable_of_fromStr h)

end RoundTrips

section Lookups

variable {V I : Type} [NodeSemver V] [BEq V]

/-- A text leads to the last key that is displayed so. -/
theorem LockfilePackageIndex.get_byDependencyPath (packages : Packages V I) (text : Text) :
    (LockfilePackageIndex.new packages).byDependencyPath.get text =
      (packages.keys.filter fun path => path.display == text).getLast? := by
  unfold LockfilePackageIndex.new
  -- the keys read so far
  induction packages.keys using List.reverseRecOn with
  | nil => rfl
  | append_singleton keys path ih =>
      rw [List.foldl_append, List.filter_append, List.foldl_cons, List.foldl_nil,
        KeyedMap.get_insert]
      by_cases h : path.display == text
      · simp [h]
      · rw [if_neg h, ih]
        simp [h]

variable [PlainSemver V] [RoundTripSemver V]

/-- The text of a key leads to this key, if it is there, and to no other one. -/
theorem LockfilePackageIndex.get_canonical {packages : Packages V I}
    (hkeys : ∀ key ∈ packages.keys, ∃ text, DependencyPath.fromStr text = .ok key) {s : Text}
    {path : DependencyPath V} (h : DependencyPath.fromStr s = .ok path)
    (hcanonical : CanonicalVersion V (DependencyPath.versionPart s)) (found : DependencyPath V) :
    (LockfilePackageIndex.new packages).byDependencyPath.get s = some found ↔
      found = path ∧ path ∈ packages.keys := by
  have hdisplay := DependencyPath.display_of_canonical h hcanonical
  have hsame : ∀ key ∈ packages.keys, key.display = s → key = path := by
    intro key hkey heq
    obtain ⟨text, htext⟩ := hkeys key hkey
    have hback := DependencyPath.keyRoundTrip.fromStr_display text key htext
    rw [heq, h, Except.ok.injEq] at hback
    exact hback.symm
  have hmem : ∀ key, key ∈ (packages.keys.filter fun path => path.display == s) ↔
      key = path ∧ path ∈ packages.keys := by
    intro key
    rw [List.mem_filter, beq_iff_eq]
    constructor
    · rintro ⟨hkey, heq⟩
      obtain rfl := hsame key hkey heq
      exact ⟨rfl, hkey⟩
    · rintro ⟨rfl, hkey⟩
      exact ⟨hkey, hdisplay⟩
  rw [LockfilePackageIndex.get_byDependencyPath]
  constructor
  · intro hlast
    exact (hmem found).mp (List.mem_of_getLast? hlast)
  · rintro ⟨rfl, hkey⟩
    have hne := List.ne_nil_of_mem ((hmem found).mpr ⟨rfl, hkey⟩)
    rw [List.getLast?_eq_some_getLast hne, Option.some.injEq]
    exact ((hmem _).mp (List.getLast_mem hne)).1

/-- Keys are displayed as they were written and parse back, different texts are different
keys, and `fetch` finds a package by the text of its key. -/
theorem keyTexts_roundTrip :
    KeyRoundTrip (PkgVerPeer.fromStr (V := V)) PkgVerPeer.display
        (fun s => CanonicalVersion V (PkgVerPeer.versionPart s)) ∧
      KeyRoundTrip (PkgNameVerPeer.fromStr (V := V)) PkgNameVerPeer.display
        (fun s => CanonicalVersion V (PkgNameVerPeer.versionPart s)) ∧
      KeyRoundTrip (DependencyPath.fromStr (V := V)) DependencyPath.display
        (fun s => CanonicalVersion V (DependencyPath.versionPart s)) ∧
      ∀ packages : Packages V I,
        (∀ key ∈ packages.keys, ∃ text, DependencyPath.fromStr text = .ok key) →
        ∀ (s : Text) (path : DependencyPath V), DependencyPath.fromStr s = .ok path →
          CanonicalVersion V (DependencyPath.versionPart s) → ∀ found,
            (LockfilePackageIndex.new packages).byDependencyPath.get s = some found ↔
              found = path ∧ path ∈ packages.keys :=
  ⟨PkgVerPeer.keyRoundTrip, PkgNameVerPeer.keyRoundTrip, DependencyPath.keyRoundTrip,
    fun _ hkeys _ _ h hcanonical found =>
      LockfilePackageIndex.get_canonical hkeys h hcanonical found⟩

end Lookups

section Samples

/-- The package `/a@1.0.0` is found by its text. -/
theorem keyTexts_roundTrip_dev :
    (LockfilePackageIndex.new devPackages).byDependencyPath.get "/a@1.0.0".toList =
      some ⟨none, coreSpecifier "a".toList⟩ := by
  have hkeys : ∀ key ∈ devPackages.keys, ∃ text, DependencyPath.fromStr text = .ok key := by
    intro key hkey
    simp only [KeyedMap.keys, devPackages, List.map_cons, List.map_nil, List.mem_cons,
      List.not_mem_nil, or_false] at hkey
    rcases hkey with rfl | rfl
    · exact ⟨"/a@1.0.0".toList, rfl⟩
    · exact ⟨"/b@1.0.0".toList, rfl⟩
  exact ((keyTexts_roundTrip.2.2.2 devPackages hkeys "/a@1.0.0".toList
    ⟨none, coreSpecifier "a".toList⟩ rfl ⟨firstVersion, rfl, rfl⟩ _).mpr
      ⟨rfl, List.mem_cons_self⟩)

/-- Two canonical texts that differ in the build metadata are equal keys. -/
theorem equal_keys_of_build :
    ∃ key key' : DependencyPath BuildVersion,
      DependencyPath.fromStr "/a@1.0.0+x".toList = .ok key ∧
      DependencyPath.fromStr "/a@1.0.0+y".toList = .ok key' ∧
      CanonicalVersion BuildVersion (DependencyPath.versionPart "/a@1.0.0+x".toList) ∧
      CanonicalVersion BuildVersion (DependencyPath.versionPart "/a@1.0.0+y".toList) ∧
      "/a@1.0.0+x".toList ≠ "/a@1.0.0+y".toList ∧ (key == key') = true :=
  ⟨⟨none, ⟨⟨none, "a".toList⟩, ⟨⟨firstVersion, "x".toList⟩, []⟩⟩⟩,
    ⟨none, ⟨⟨none, "a".toList⟩, ⟨⟨firstVersion, "y".toList⟩, []⟩⟩⟩, rfl, rfl,
    ⟨⟨firstVersion, "x".toList⟩, rfl, rfl⟩, ⟨⟨firstVersion, "y".toList⟩, rfl, rfl⟩,
    by decide, rfl⟩

end Samples

end Npnpm
